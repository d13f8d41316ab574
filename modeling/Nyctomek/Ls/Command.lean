/-
# `Ls.Command` — the whole command

`processLSCommand` asks for the information of every operand, lists the files among them first
and then one directory after the other.

    no operand              `.`
    unknown to `lstat`      reported, and left out
    a directory             listed as a file with -d, else by its contents
    more than one left      the directories have a header row

The report is put together in a buffer of 1029 bytes, no call looks at what `opendir` returns,
and not everything can be printed: these are the ways in which the command goes wrong
(`processLSCommand_ends_iff`).  What it lists when it does not is in `processLSCommand_output`.
-/
import Nyctomek.Ls.Memory
import Nyctomek.Ls.Options
import Nyctomek.Ls.Trees

namespace Nyctomek.Ls

open Prog

/-! ## The operands -/

/-- `getFileInfo` for an operand, which may be of any length: the report is written to
`prefix`, and a name that is known has to fit into `filename`. -/
def getOperandInfo (fs : FileSystem) (filename : Bytes) : Except Fault (Option FileInfo) :=
  match fs.lstat filename with
  | none =>
      let report := ascii "ls: " ++ filename
      if report.length < MAX_FILE_NAME_LEN + 5 then .ok none
      else .error (.indexOutOfRange report.length)
  | some statInfo =>
      if h : filename.length < MAX_FILE_NAME_LEN then .ok (some ⟨filename, statInfo, h⟩)
      else .error (.indexOutOfRange filename.length)

/-- The two lists, on one heap. -/
structure Operands where
  heap : Heap FileInfoListNode
  regularFileList : Option Ptr
  regularFileTail : Option Ptr
  regularFileCount : Nat
  directoryList : Option Ptr
  directoryTail : Option Ptr
  directoryCount : Nat
  deriving DecidableEq, Repr

/-- Whether an operand is listed by its contents. -/
def FileInfo.isExpanded (options : UInt32) (file : FileInfo) : Bool :=
  file.statInfo.isDirectory ∧ options &&& DASH_d = 0

/-- The body of the loop in `getInfoForFilenames`. -/
def readOperand (fs : FileSystem) (options : UInt32) (s : Operands) (filename : Bytes) :
    Except Fault Operands := do
  match ← getOperandInfo fs filename with
  | none => .ok s
  | some fileInfo =>
      if fileInfo.isExpanded options then
        let list ← addFileInfoToList fileInfo ⟨s.heap, s.directoryList, s.directoryTail⟩
        .ok { s with
          heap := list.heap, directoryList := list.head, directoryTail := list.tail
          directoryCount := s.directoryCount + 1 }
      else
        let list ← addFileInfoToList fileInfo ⟨s.heap, s.regularFileList, s.regularFileTail⟩
        .ok { s with
          heap := list.heap, regularFileList := list.head, regularFileTail := list.tail
          regularFileCount := s.regularFileCount + 1 }

def getInfoForFilenames (fs : FileSystem) (filenames : List Bytes) (options : UInt32) :
    Except Fault Operands :=
  filenames.foldlM (readOperand fs options) ⟨.empty, none, none, 0, none, none, 0⟩

/-! ## The directories -/

def listDirectoryInfo (sys : System) (std : StdSort) (fs : FileSystem) (options : UInt32)
    (fuel : Nat) (directoryInfo : List FileInfo) (printHeaderRow : Bool)
    (s : List Listing × Heap FileInfoListNode) : Exec Fault (List Listing × Heap FileInfoListNode) :=
  directoryInfo.foldlM (fun s directory => do
    let (listings, heap) ←
      listDirectoryContents sys std fs options fuel s.2 directory printHeaderRow
    return (s.1 ++ listings, heap)) s

/-! ## The command -/

/-- The unknown options reported, the calls of `listFileInfo` for the files and for the
directories, and the heap in the end. -/
structure Output where
  unknown : List UInt8
  regular : Option (List FileInfo × List Printed)
  directories : List Listing
  heap : Heap FileInfoListNode

/-- The operands, or the default. -/
def filenamesOf (argv : List Bytes) : List Bytes :=
  if (parseOptionalArguments argv).2.length = 0 then [[dot]] else (parseOptionalArguments argv).2

/-- The files are sorted and listed, if there are any. -/
def listRegularFiles (sys : System) (std : StdSort) (options : UInt32) (fuel : Nat) (s : Operands) :
    Exec Fault (Option (List FileInfo × List Printed)) :=
  if s.regularFileCount ≠ 0 then do
    let sortedFileInfo ←
      sortFileInfo std fuel s.heap s.regularFileList s.regularFileCount options
    let printed ← callListFileInfo sys sortedFileInfo options []
    return some (sortedFileInfo, printed)
  else return none

/-- And then the directories. -/
def listDirectories (sys : System) (std : StdSort) (fs : FileSystem) (options : UInt32) (fuel : Nat)
    (s : Operands) : Exec Fault (List Listing × Heap FileInfoListNode) :=
  if s.directoryCount ≠ 0 then do
    let sortedDirectoryInfo ←
      sortFileInfo std fuel s.heap s.directoryList s.directoryCount options
    let printHeaderRow := decide (s.regularFileCount + s.directoryCount > 1)
    listDirectoryInfo sys std fs options fuel sortedDirectoryInfo printHeaderRow ([], s.heap)
  else return ([], s.heap)

def processLSCommand (sys : System) (std : StdSort) (fs : FileSystem) (argv : List Bytes)
    (fuel : Nat) : Exec Fault Output := do
  let options := (parseOptionalArguments argv).1
  let s ← (getInfoForFilenames fs (filenamesOf argv) options.flags : Exec Fault Operands)
  let regular ← listRegularFiles sys std options.flags fuel s
  let directories ← listDirectories sys std fs options.flags fuel s
  let heap ← freeFileInfoList fuel directories.2 s.regularFileList
  let heap ← freeFileInfoList fuel heap s.directoryList
  return ⟨options.unknown, regular, directories.1, heap⟩

/-! ## What is asked of the operands -/

section
variable {sys : System} {std : StdSort} {fs : FileSystem} {options : UInt32}
  {heap h' : Heap FileInfoListNode} {n q : Bytes} {names : List Bytes} {file : FileInfo}
  {s s' : Operands} {regs dirs : List (Ptr × FileInfo)}

/-- The name has room in the report, or in `filename`. -/
def Readable (fs : FileSystem) (n : Bytes) : Prop :=
  (fs.lstat n = none → n.length ≤ MAX_FILE_NAME_LEN) ∧
    (fs.lstat n ≠ none → n.length < MAX_FILE_NAME_LEN)

def operandInfo (fs : FileSystem) (n : Bytes) : Option FileInfo :=
  (fs.lstat n).bind fun statInfo =>
    if h : n.length < MAX_FILE_NAME_LEN then some ⟨n, statInfo, h⟩ else none

theorem getOperandInfo_of_readable (h : Readable fs n) :
    getOperandInfo fs n = .ok (operandInfo fs n) := by
  obtain ⟨hnone, hsome⟩ := h
  have hlen : (ascii "ls: " ++ n).length = 4 + n.length := List.length_append
  rw [getOperandInfo, operandInfo]
  cases hstat : fs.lstat n with
  | none =>
      have hle := hnone hstat
      have hfits : (ascii "ls: " ++ n).length < MAX_FILE_NAME_LEN + 5 := by omega
      simp only [if_pos hfits, Option.bind_none]
  | some statInfo =>
      have hlt := hsome (by simp [hstat])
      simp only [dif_pos hlt, Option.bind_some]

theorem readable_of_getOperandInfo {r : Option FileInfo} (h : getOperandInfo fs n = .ok r) :
    Readable fs n := by
  have hlen : (ascii "ls: " ++ n).length = 4 + n.length := List.length_append
  rw [getOperandInfo] at h
  cases hstat : fs.lstat n with
  | none =>
      simp only [hstat] at h
      split at h
      · refine ⟨fun _ => ?_, fun hne => absurd hstat hne⟩
        omega
      · cases h
  | some statInfo =>
      simp only [hstat] at h
      split at h
      · rename_i hlt
        refine ⟨fun hnone => ?_, fun _ => hlt⟩
        rw [hstat] at hnone
        cases hnone
      · cases h

/-- The files among the operands, as far as `lstat` knows them … -/
def regularFiles (fs : FileSystem) (options : UInt32) (names : List Bytes) : List FileInfo :=
  (names.filterMap (operandInfo fs)).filter fun file => !file.isExpanded options

/-- … and the directories that are listed by their contents. -/
def directoriesOf (fs : FileSystem) (options : UInt32) (names : List Bytes) : List FileInfo :=
  (names.filterMap (operandInfo fs)).filter fun file => file.isExpanded options

/-- The two lists have the cells, and nothing else is on the heap. -/
structure Operands.Holds (s : Operands) (regs dirs : List (Ptr × FileInfo)) : Prop where
  regular : Collected .empty ⟨s.heap, s.regularFileList, s.regularFileTail⟩ regs
  directory : Collected .empty ⟨s.heap, s.directoryList, s.directoryTail⟩ dirs
  regularCount : s.regularFileCount = regs.length
  directoryCount : s.directoryCount = dirs.length
  apart : ∀ c ∈ regs, ∀ d ∈ dirs, c.1 ≠ d.1
  only : OnlyLive .empty s.heap (regs ++ dirs)

theorem Collected.lt_fresh {h : Heap FileInfoListNode} {l : FileInfoList}
    {cells : List (Ptr × FileInfo)} (hl : Collected h l cells) {c : Ptr × FileInfo}
    (hc : c ∈ cells) : c.1 < l.heap.fresh := by
  obtain ⟨next, hread⟩ := hl.linked.read hc
  exact Heap.read_lt_fresh hread

/-- One more file. -/
theorem Operands.Holds.addRegular (h : s.Holds regs dirs) (file : FileInfo) :
    ∃ list cells, addFileInfoToList file ⟨s.heap, s.regularFileList, s.regularFileTail⟩ = .ok list ∧
      cells.map Prod.snd = regs.map Prod.snd ++ [file] ∧
      Holds { s with
        heap := list.heap, regularFileList := list.head, regularFileTail := list.tail
        regularFileCount := s.regularFileCount + 1 } cells dirs := by
  obtain ⟨list, hadd, hlist⟩ := h.regular.add file
  have hbeside := h.regular.beside hadd h.directory.linked h.apart
  have hapart : ∀ c ∈ regs ++ [(s.heap.fresh, file)], ∀ d ∈ dirs, c.1 ≠ d.1 := by
    intro c hc d hd
    rcases List.mem_append.mp hc with hc | hc
    · exact h.apart c hc d hd
    · rw [List.mem_singleton.mp hc]
      exact Nat.ne_of_gt (h.directory.lt_fresh hd)
  refine ⟨list, regs ++ [(s.heap.fresh, file)], hadd, ?_, hlist, ?_, ?_, h.directoryCount,
    hapart, ?_⟩
  · rw [List.map_append]
    rfl
  · exact ⟨hbeside, h.directory.tail, h.directory.newer, hlist.keeps⟩
  · rw [List.length_append, ← h.regularCount]
    rfl
  · refine h.only.add hadd ?_ ?_
    · simp only [List.map_append, List.mem_append]
      exact fun a ha => ha.imp_left .inl
    · simp

/-- One more directory. -/
theorem Operands.Holds.addDirectory (h : s.Holds regs dirs) (file : FileInfo) :
    ∃ list cells, addFileInfoToList file ⟨s.heap, s.directoryList, s.directoryTail⟩ = .ok list ∧
      cells.map Prod.snd = dirs.map Prod.snd ++ [file] ∧
      Holds { s with
        heap := list.heap, directoryList := list.head, directoryTail := list.tail
        directoryCount := s.directoryCount + 1 } regs cells := by
  obtain ⟨list, hadd, hlist⟩ := h.directory.add file
  have hbeside := h.directory.beside hadd h.regular.linked
    fun d hd c hc => (h.apart c hc d hd).symm
  have hapart : ∀ c ∈ regs, ∀ d ∈ dirs ++ [(s.heap.fresh, file)], c.1 ≠ d.1 := by
    intro c hc d hd
    rcases List.mem_append.mp hd with hd | hd
    · exact h.apart c hc d hd
    · rw [List.mem_singleton.mp hd]
      exact Nat.ne_of_lt (h.regular.lt_fresh hc)
  refine ⟨list, dirs ++ [(s.heap.fresh, file)], hadd, ?_, ?_, hlist, h.regularCount, ?_,
    hapart, ?_⟩
  · rw [List.map_append]
    rfl
  · exact ⟨hbeside, h.regular.tail, h.regular.newer, hlist.keeps⟩
  · rw [List.length_append, ← h.directoryCount]
    rfl
  · refine h.only.add hadd ?_ ?_
    · simp only [List.map_append, List.mem_append]
      exact fun a ha => ha.imp_right .inl
    · simp

/-- **The loop over the operands.** -/
theorem getInfoForFilenames_ok (options : UInt32) (hnames : ∀ n ∈ names, Readable fs n) :
    ∃ s regs dirs, getInfoForFilenames fs names options = .ok s ∧ s.Holds regs dirs ∧
      regs.map Prod.snd = regularFiles fs options names ∧
      dirs.map Prod.snd = directoriesOf fs options names := by
  induction names using List.reverseRecOn with
  | nil =>
      refine ⟨_, [], [], rfl, ⟨collected_nil _, collected_nil _, rfl, rfl, ?_, ?_⟩, rfl, rfl⟩
      · exact fun _ hc => nomatch hc
      · exact fun a ha hlive => absurd (Heap.read_of_fresh_le ha) hlive
  | append_singleton names n ih =>
      obtain ⟨hfront, hlast⟩ := List.forall_mem_append.mp hnames
      obtain ⟨s, regs, dirs, hs, hholds, hregs, hdirs⟩ := ih hfront
      have hinfo := getOperandInfo_of_readable (List.forall_mem_singleton.mp hlast)
      have hstep : getInfoForFilenames fs (names ++ [n]) options = readOperand fs options s n := by
        rw [getInfoForFilenames] at hs
        rw [getInfoForFilenames, List.foldlM_append, hs, ok_bind, List.foldlM_cons]
        cases readOperand fs options s n <;> rfl
      rw [hstep, readOperand, hinfo, ok_bind]
      rw [regularFiles] at hregs
      rw [directoriesOf] at hdirs
      simp only [regularFiles, directoriesOf, List.filterMap_append, List.filter_append]
      cases hfile : operandInfo fs n with
      | none =>
          refine ⟨s, regs, dirs, rfl, hholds, ?_, ?_⟩
          · simpa [hfile] using hregs
          · simpa [hfile] using hdirs
      | some file =>
          cases hexpanded : file.isExpanded options with
          | true =>
              obtain ⟨list, cells, hadd, hcells, hnext⟩ := hholds.addDirectory file
              refine ⟨_, regs, cells, ?_, hnext, ?_, ?_⟩
              · simp only [hexpanded, if_true, hadd, ok_bind]
              · simpa [hfile, hexpanded] using hregs
              · simp [hfile, hexpanded, hcells, hdirs]
          | false =>
              obtain ⟨list, cells, hadd, hcells, hnext⟩ := hholds.addRegular file
              refine ⟨_, cells, dirs, ?_, hnext, ?_, ?_⟩
              · simp only [hexpanded, Bool.false_eq_true, if_false, hadd, ok_bind]
              · simp [hfile, hexpanded, hcells, hregs]
              · simpa [hfile, hexpanded] using hdirs

theorem readable_of_ok {s₀ : Operands}
    (h : names.foldlM (readOperand fs options) s₀ = .ok s) : ∀ n ∈ names, Readable fs n := by
  induction names generalizing s₀ with
  | nil => exact List.forall_mem_nil _
  | cons n names ih =>
      rw [List.foldlM_cons] at h
      obtain ⟨s₁, hfirst, hrest⟩ := bind_eq_ok h
      obtain ⟨r, hinfo, -⟩ := bind_eq_ok hfirst
      exact List.forall_mem_cons.mpr ⟨readable_of_getOperandInfo hinfo, ih hrest⟩

/-! ## What is asked of the directories -/

/-- The call for a directory comes to an end, and all directories it comes to can be opened and
printed. -/
structure CanList (sys : System) (fs : FileSystem) (options : UInt32) (path : Bytes) : Prop where
  acc : Acc (Calls fs options) path
  opened : AllOpen fs options path
  printable : AllPrintable sys fs options path

/-- A listing in a call for `path`: of which directory, with what in it, and with a header row if
the call was to print one. -/
structure Listing.IsFrom (sys : System) (std : StdSort) (fs : FileSystem) (options : UInt32)
    (path : Bytes) (printHeaderRow : Bool) (listing : Listing) : Prop where
  visited : Visits fs options path listing.directory
  isOf : listing.IsOf sys std fs options listing.directory
  header : printHeaderRow = true → listing.printHeaderRow = true

/-- Where the listings of the loop over the sorted entries come from. -/
theorem subdirectories_from {recurse : Heap FileInfoListNode → FileInfo →
      Exec Fault (List Listing × Heap FileInfoListNode)} {Q : FileInfo → Listing → Prop}
    (hrecurse : ∀ h file listings h', recurse h file = done (.ok (listings, h')) →
      ∀ listing ∈ listings, Q file listing)
    {files : List FileInfo} {s : List Listing × Heap FileInfoListNode} {listings : List Listing}
    (hdone : files.foldlM (listSubdirectory recurse) s = done (.ok (listings, h'))) :
    ∀ listing ∈ listings, listing ∈ s.1 ∨
      ∃ file ∈ files, file.statInfo.isDirectory ∧ Q file listing := by
  induction files generalizing s with
  | nil =>
      obtain rfl := Except.ok.inj (done_inj hdone)
      exact fun _ hmem => .inl hmem
  | cons file files ih =>
      intro listing hmem
      rw [List.foldlM_cons] at hdone
      obtain ⟨s₁, hfirst, hrest⟩ := bind_eq_done_ok hdone
      rcases ih hrest listing hmem with hfront | ⟨f, hf, hdir, hQ⟩
      · rw [listSubdirectory] at hfirst
        split at hfirst
        · rename_i hdir
          obtain ⟨⟨deeper, h₁⟩, hcall, hpair⟩ := bind_eq_done_ok hfirst
          obtain rfl := Except.ok.inj (done_inj hpair)
          rcases List.mem_append.mp hfront with hold | hnew
          · exact .inl hold
          · exact .inr ⟨file, List.mem_cons_self, hdir,
              hrecurse s.2 file deeper h₁ hcall listing hnew⟩
        · obtain rfl := Except.ok.inj (done_inj hfirst)
          exact .inl hfront
      · exact .inr ⟨f, List.mem_cons_of_mem _ hf, hdir, hQ⟩

theorem listSubdirectories_from {recurse : Heap FileInfoListNode → FileInfo →
      Exec Fault (List Listing × Heap FileInfoListNode)} {Q : FileInfo → Listing → Prop}
    (hrecurse : ∀ h file listings h', recurse h file = done (.ok (listings, h')) →
      ∀ listing ∈ listings, Q file listing)
    {files : List FileInfo} {s : List Listing × Heap FileInfoListNode} {listings : List Listing}
    (hdone : listSubdirectories options recurse files s = done (.ok (listings, h'))) :
    ∀ listing ∈ listings, listing ∈ s.1 ∨ (options &&& DASH_R ≠ 0 ∧
      ∃ file ∈ files, file.statInfo.isDirectory ∧ Q file listing) := by
  intro listing hmem
  rw [listSubdirectories] at hdone
  split at hdone
  · next hR => exact (subdirectories_from hrecurse hdone listing hmem).imp_right fun h => ⟨hR, h⟩
  · obtain rfl := Except.ok.inj (done_inj hdone)
    exact .inl hmem

/-- **No other directory is listed.** -/
theorem listDirectoryContents_from (fuel : Nat) :
    ∀ (heap : Heap FileInfoListNode) (file : FileInfo) (printHeaderRow : Bool)
      (listings : List Listing) (h' : Heap FileInfoListNode),
      listDirectoryContents sys std fs options fuel heap file printHeaderRow
        = done (.ok (listings, h')) →
      ∀ listing ∈ listings, listing.IsFrom sys std fs options file.filename printHeaderRow := by
  induction fuel with
  | zero =>
      intro heap file printHeaderRow listings h' hdone
      exact absurd hdone (noFuel_ne_done _)
  | succ fuel ih =>
      intro heap file printHeaderRow listings h' hdone listing hmem
      cases hopened : fs.readdir file.filename with
      | none =>
          rw [listDirectoryContents, hopened] at hdone
          cases done_inj hdone
      | some entries =>
          obtain ⟨s, cells, -, hs, ⟨-, e, he⟩ | ⟨printed, result, -, hprinted, hloop, ⟨e, -, he⟩ |
            ⟨listings₁, h₁, rfl, hdone⟩⟩⟩ := listDirectoryContents_cases hopened hdone
          · cases he
          · cases he
          obtain ⟨h₂, -, hdone⟩ := bind_eq_done_ok hdone
          obtain ⟨rfl, -⟩ := Prod.mk.inj (Except.ok.inj (done_inj hdone))
          rcases listSubdirectories_from (fun h f => ih h f true) hloop listing hmem with
            hfirst | ⟨hR, f, hf, hdir, hfrom⟩
          · rw [List.mem_singleton.mp hfirst]
            exact ⟨.refl, isOf_listingOf hopened hprinted printHeaderRow, fun h => h⟩
          · exact ⟨hfrom.visited.head ((calls_iff hopened).mpr ⟨hR, f, hf, hdir, rfl⟩), hfrom.isOf,
              fun _ => hfrom.header rfl⟩

/-- What a call for an operand may come to with a result. -/
theorem listDirectory_done {fuel : Nat} {printHeaderRow : Bool} {listings : List Listing}
    (h : listDirectoryContents sys std fs options fuel heap file printHeaderRow
      = done (.ok (listings, h'))) :
    heap.Clears h' ∧ CanList sys fs options file.filename ∧
      ∀ listing ∈ listings, listing.IsFrom sys std fs options file.filename printHeaderRow := by
  refine ⟨listDirectoryContents_clears fuel heap file printHeaderRow listings h' h, ?_,
    listDirectoryContents_from fuel heap file printHeaderRow listings h' h⟩
  rcases listDirectoryContents_done fuel heap file printHeaderRow _ h with
    ⟨_, _, -, -, hall⟩ | ⟨⟨e, he⟩, -⟩
  · exact ⟨hall.acc, hall.opened, hall.printable⟩
  · cases he

/-- The loop over the directories, by what has come of it. -/
theorem listDirectoryInfo_done {fuel : Nat} {printHeaderRow : Bool} {directories : List FileInfo}
    {s : List Listing × Heap FileInfoListNode} {listings : List Listing}
    (h : listDirectoryInfo sys std fs options fuel directories printHeaderRow s
      = done (.ok (listings, h'))) :
    s.2.Clears h' ∧ (∀ file ∈ directories, CanList sys fs options file.filename) ∧
      ∀ listing ∈ listings, listing ∈ s.1 ∨
        ∃ file ∈ directories, listing.IsFrom sys std fs options file.filename printHeaderRow := by
  rw [listDirectoryInfo] at h
  induction directories generalizing s with
  | nil =>
      obtain rfl := Except.ok.inj (done_inj h)
      exact ⟨.refl _, List.forall_mem_nil _, fun _ hmem => .inl hmem⟩
  | cons file directories ih =>
      rw [List.foldlM_cons] at h
      obtain ⟨s₁, hfirst, hrest⟩ := bind_eq_done_ok h
      obtain ⟨⟨deeper, h₁⟩, hcall, hpair⟩ := bind_eq_done_ok hfirst
      obtain rfl := Except.ok.inj (done_inj hpair)
      obtain ⟨hclears, hcan, hfrom⟩ := listDirectory_done hcall
      obtain ⟨hclears', hall, hfroms⟩ := ih hrest
      refine ⟨hclears.trans hclears', List.forall_mem_cons.mpr ⟨hcan, hall⟩, ?_⟩
      intro listing hmem
      rcases hfroms listing hmem with hfront | ⟨f, hf, hlast⟩
      · rcases List.mem_append.mp hfront with hold | hnew
        · exact .inl hold
        · exact .inr ⟨file, List.mem_cons_self, hfrom listing hnew⟩
      · exact .inr ⟨f, List.mem_cons_of_mem _ hf, hlast⟩

/-- The loop over the directories, by what can be listed. -/
theorem listDirectoryInfo_ends (std : StdSort) (heap : Heap FileInfoListNode)
    (printHeaderRow : Bool) {directories : List FileInfo}
    (h : ∀ file ∈ directories, CanList sys fs options file.filename) : ∃ listings h',
      Ends (fun fuel =>
        listDirectoryInfo sys std fs options fuel directories printHeaderRow ([], heap))
        (.ok (listings, h')) ∧
      ∀ file ∈ directories, ∀ q, Visits fs options file.filename q →
        HasListing sys std fs options listings q := by
  suffices hloop : ∃ s, Ends (fun fuel =>
      listDirectoryInfo sys std fs options fuel directories printHeaderRow ([], heap)) (.ok s) ∧
      ∀ file ∈ directories, ∀ q, Visits fs options file.filename q →
        HasListing sys std fs options s.1 q by
    obtain ⟨⟨listings, h'⟩, hends, hlisted⟩ := hloop
    exact ⟨listings, h', hends, hlisted⟩
  unfold listDirectoryInfo
  refine Ends.foldlM (I := fun (past : List FileInfo) (s : List Listing × Heap FileInfoListNode) =>
    ∀ file ∈ past, ∀ q, Visits fs options file.filename q → HasListing sys std fs options s.1 q)
    (List.forall_mem_nil _) directories ?_
  intro past file hpast s hs
  have hmem : file ∈ directories :=
    hpast.subset (List.mem_append_right _ (List.mem_singleton_self file))
  obtain ⟨hacc, hopen, hprintable⟩ := h file hmem
  obtain ⟨deeper, h', hends, hlisted⟩ := @listDirectoryContents_ends sys std _ _ _ hacc hopen
    hprintable s.2 file printHeaderRow rfl
  refine ⟨(s.1 ++ deeper, h'), hends.bind (Ends.const _), ?_⟩
  intro f hf q hq
  rcases List.mem_append.mp hf with hold | hlast
  · exact (hs f hold q hq).of_subset (List.subset_append_left _ _)
  · rw [List.mem_singleton.mp hlast] at hq
    exact (hlisted q hq).of_subset (List.subset_append_right _ _)

/-! ## The two lists are freed -/

/-- With the cells of both lists nothing is left on the heap. -/
theorem Operands.Holds.freed {h₁ : Heap FileInfoListNode} (h : s.Holds regs dirs)
    (hclears : s.heap.Clears h₁) : ∃ h₂ h₃,
      Ends (fun fuel => freeFileInfoList fuel h₁ s.regularFileList) (.ok h₂) ∧
      Ends (fun fuel => freeFileInfoList fuel h₂ s.directoryList) (.ok h₃) ∧
      ∀ p, h₃.read p = none := by
  obtain ⟨h₂, hends₂, -, hfreed₂, hkept₂⟩ :=
    free_list (h.regular.linked.of_keeps hclears.toKeeps)
  have hdirs : Linked h₂ s.directoryList dirs := by
    refine (h.directory.linked.of_keeps hclears.toKeeps).congr ?_
    intro d hd
    refine hkept₂ d.1 ?_
    intro hmem
    obtain ⟨c, hc, hsame⟩ := List.mem_map.mp hmem
    exact h.apart c hc d hd hsame
  obtain ⟨h₃, hends₃, -, hfreed₃, hkept₃⟩ := free_list hdirs
  refine ⟨h₂, h₃, hends₂, hends₃, ?_⟩
  intro p
  by_cases hdir : p ∈ dirs.map Prod.fst
  · exact hfreed₃ p hdir
  rw [hkept₃ p hdir]
  by_cases hreg : p ∈ regs.map Prod.fst
  · exact hfreed₂ p hreg
  rw [hkept₂ p hreg]
  rcases Nat.lt_or_ge p s.heap.fresh with hlt | hge
  · rw [hclears.read p hlt]
    by_contra hlive
    have hmem := h.only p (Nat.zero_le p) hlive
    rw [List.map_append, List.mem_append] at hmem
    exact hmem.elim hreg hdir
  · exact hclears.freed p hge

/-! ## The command as a whole -/

variable {argv : List Bytes} {out : Output}

/-- The flags of the command line. -/
def flagsOf (argv : List Bytes) : UInt32 := (parseOptionalArguments argv).1.flags

/-- The files that are listed first … -/
def filesOf (fs : FileSystem) (argv : List Bytes) : List FileInfo :=
  regularFiles fs (flagsOf argv) (filenamesOf argv)

/-- … and the directories behind them. -/
def foldersOf (fs : FileSystem) (argv : List Bytes) : List FileInfo :=
  directoriesOf fs (flagsOf argv) (filenamesOf argv)

/-- The operands have room, the files among them can be printed, and the directories listed. -/
structure Listable (sys : System) (fs : FileSystem) (argv : List Bytes) : Prop where
  readable : ∀ n ∈ filenamesOf argv, Readable fs n
  printable : Printable sys (flagsOf argv) (filesOf fs argv) []
  canList : ∀ file ∈ foldersOf fs argv, CanList sys fs (flagsOf argv) file.filename

/-- Nothing is asked of no files. -/
theorem printable_nil (sys : System) (options : UInt32) (relativePath : Bytes) :
    Printable sys options [] relativePath := by
  unfold Printable
  split
  · exact List.forall_mem_nil _
  · exact fun _ _ => .inl rfl

/-- The listing of the files, if there are any: sorted, and as they are printed. -/
def IsRegularListing (sys : System) (std : StdSort) (options : UInt32) (files : List FileInfo)
    (regular : Option (List FileInfo × List Printed)) : Prop :=
  if files = [] then regular = none
  else ∃ printed, listFileInfo sys (sortedFiles std options files) options [] = .ok printed ∧
    regular = some (sortedFiles std options files, printed)

/-- The list of the files is empty exactly if it has no count. -/
theorem listRegularFiles_ends (std : StdSort) (hs : s.Holds regs dirs)
    (hprintable : Printable sys options (regs.map Prod.snd) []) : ∃ regular,
    Ends (fun fuel => listRegularFiles sys std options fuel s) (.ok regular) ∧
      IsRegularListing sys std options (regs.map Prod.snd) regular := by
  unfold listRegularFiles IsRegularListing
  rw [hs.regularCount]
  cases regs with
  | nil => exact ⟨none, Ends.const _, rfl⟩
  | cons c regs =>
      have hcount : (c :: regs).length ≠ 0 := Nat.succ_ne_zero _
      rw [← Printable.perm (sortedFiles_perm std options _)] at hprintable
      obtain ⟨printed, hprinted, hcall⟩ := callListFileInfo_of_printable hprintable
      refine ⟨_, ?_, printed, hprinted, rfl⟩
      simp only [if_pos hcount]
      refine (sortFileInfo_eq std options hs.regular.linked).bind ?_
      rw [hcall]
      exact Ends.const _

theorem printable_of_listRegularFiles {fuel : Nat} {regular : Option (List FileInfo × List Printed)}
    (hs : s.Holds regs dirs)
    (h : listRegularFiles sys std options fuel s = done (.ok regular)) :
    Printable sys options (regs.map Prod.snd) [] := by
  unfold listRegularFiles at h
  rw [hs.regularCount] at h
  by_cases hcount : regs.length ≠ 0
  · rw [if_pos hcount] at h
    have h := (sortFileInfo_mono s.regularFileList regs.length).bind_eq_done
      (sortFileInfo_eq std options hs.regular.linked) h
    by_contra hprintable
    rw [← Printable.perm (sortedFiles_perm std options _)] at hprintable
    obtain ⟨e, hcall⟩ := callListFileInfo_of_not_printable hprintable
    rw [hcall, done_error_bind] at h
    cases done_inj h
  · rw [List.length_eq_zero_iff.mp (not_not.mp hcount)]
    exact printable_nil sys options []

theorem listRegularFiles_mono (sys : System) (std : StdSort) (options : UInt32) (s : Operands) :
    FuelMono fun fuel => listRegularFiles sys std options fuel s := by
  unfold listRegularFiles
  split
  · exact (sortFileInfo_mono _ _).bind fun _ => FuelMono.const _
  · exact FuelMono.const _

/-- What the loop over the directories is called with. -/
theorem listDirectories_done {fuel : Nat} (hs : s.Holds regs dirs) {listings : List Listing}
    (h : listDirectories sys std fs options fuel s = done (.ok (listings, h'))) :
    s.heap.Clears h' ∧ (∀ file ∈ dirs.map Prod.snd, CanList sys fs options file.filename) ∧
      ∀ listing ∈ listings, ∃ file ∈ dirs.map Prod.snd,
        listing.IsFrom sys std fs options file.filename (decide (regs.length + dirs.length > 1)) := by
  rw [listDirectories] at h
  split at h
  · have hsort := sortFileInfo_eq std options hs.directory.linked
    rw [← hs.directoryCount] at hsort
    have h := (sortFileInfo_mono s.directoryList s.directoryCount).bind_eq_done hsort h
    obtain ⟨hclears, hcan, hfrom⟩ := listDirectoryInfo_done h
    have hperm := sortedFiles_perm std options (dirs.map Prod.snd)
    refine ⟨hclears, fun file hfile => hcan file (hperm.mem_iff.mpr hfile), ?_⟩
    intro listing hmem
    obtain ⟨file, hfile, hlisting⟩ := (hfrom listing hmem).resolve_left (List.not_mem_nil)
    rw [hs.regularCount, hs.directoryCount] at hlisting
    exact ⟨file, hperm.mem_iff.mp hfile, hlisting⟩
  · rename_i hcount
    rw [hs.directoryCount, ne_eq, not_not, List.length_eq_zero_iff] at hcount
    obtain ⟨rfl, rfl⟩ := Prod.mk.inj (Except.ok.inj (done_inj h))
    subst hcount
    exact ⟨.refl _, List.forall_mem_nil _, List.forall_mem_nil _⟩

theorem listDirectories_ends (std : StdSort) (hs : s.Holds regs dirs)
    (h : ∀ file ∈ dirs.map Prod.snd, CanList sys fs options file.filename) : ∃ listings h',
      Ends (fun fuel => listDirectories sys std fs options fuel s) (.ok (listings, h')) ∧
      ∀ file ∈ dirs.map Prod.snd, ∀ q, Visits fs options file.filename q →
        HasListing sys std fs options listings q := by
  unfold listDirectories
  split
  · have hsort := sortFileInfo_eq std options hs.directory.linked
    rw [← hs.directoryCount] at hsort
    have hperm := sortedFiles_perm std options (dirs.map Prod.snd)
    obtain ⟨listings, h', hends, hlisted⟩ := listDirectoryInfo_ends std s.heap
      (decide (s.regularFileCount + s.directoryCount > 1))
      fun file hfile => h file (hperm.mem_iff.mp hfile)
    exact ⟨listings, h', hsort.bind hends, fun file hfile =>
      hlisted file (hperm.mem_iff.mpr hfile)⟩
  · rename_i hcount
    rw [hs.directoryCount, ne_eq, not_not, List.length_eq_zero_iff] at hcount
    subst hcount
    exact ⟨[], s.heap, Ends.const _, List.forall_mem_nil _⟩

/-- What is left to do when the operands have been read. -/
theorem processLSCommand_eq (sys : System) (std : StdSort) (argv : List Bytes)
    (hread : getInfoForFilenames fs (filenamesOf argv) (flagsOf argv) = .ok s) (fuel : Nat) :
    processLSCommand sys std fs argv fuel = (do
      let regular ← listRegularFiles sys std (flagsOf argv) fuel s
      let directories ← listDirectories sys std fs (flagsOf argv) fuel s
      let heap ← freeFileInfoList fuel directories.2 s.regularFileList
      let heap ← freeFileInfoList fuel heap s.directoryList
      return ⟨(parseOptionalArguments argv).1.unknown, regular, directories.1, heap⟩) := by
  rw [flagsOf] at hread
  rw [processLSCommand]
  simp only [hread, lift_eq_done, done_ok_bind]
  rfl

/-- What the command may come to with an output. -/
theorem processLSCommand_done {fuel : Nat}
    (hdone : processLSCommand sys std fs argv fuel = done (.ok out)) :
    Listable sys fs argv ∧
      IsRegularListing sys std (flagsOf argv) (filesOf fs argv) out.regular ∧
      (∀ listing ∈ out.directories, ∃ file ∈ foldersOf fs argv,
        listing.IsFrom sys std fs (flagsOf argv) file.filename
          (decide ((filesOf fs argv).length + (foldersOf fs argv).length > 1))) ∧
      ∀ p, out.heap.read p = none := by
  have hread : ∀ n ∈ filenamesOf argv, Readable fs n := by
    rw [processLSCommand] at hdone
    obtain ⟨s, hread, -⟩ := bind_eq_done_ok hdone
    exact readable_of_ok (done_inj hread)
  obtain ⟨s, regs, dirs, hs, hholds, hregs, hdirs⟩ :=
    getInfoForFilenames_ok (flagsOf argv) hread
  rw [← filesOf] at hregs
  rw [← foldersOf] at hdirs
  rw [processLSCommand_eq sys std argv hs] at hdone
  obtain ⟨regular, hregular, hdone⟩ := bind_eq_done_ok hdone
  have hprintable := printable_of_listRegularFiles hholds hregular
  obtain ⟨regular', hends₁, hlisting⟩ := listRegularFiles_ends std hholds hprintable
  obtain rfl := Except.ok.inj
    (((listRegularFiles_mono sys std (flagsOf argv) s).ends hregular).unique hends₁)
  obtain ⟨⟨listings, h₁⟩, hlist, hdone⟩ := bind_eq_done_ok hdone
  obtain ⟨hclears, hcan, hfrom⟩ := listDirectories_done hholds hlist
  obtain ⟨h₂, h₃, hends₂, hends₃, hfreed⟩ := hholds.freed hclears
  have hdone := (freeFileInfoList_mono s.regularFileList).bind_eq_done hends₂ hdone
  have hdone := (freeFileInfoList_mono s.directoryList).bind_eq_done hends₃ hdone
  obtain rfl := Except.ok.inj (done_inj hdone)
  rw [hdirs] at hcan hfrom
  rw [hregs] at hprintable hlisting
  have hnregs : regs.length = (filesOf fs argv).length := by rw [← hregs, List.length_map]
  have hndirs : dirs.length = (foldersOf fs argv).length := by rw [← hdirs, List.length_map]
  rw [hnregs, hndirs] at hfrom
  exact ⟨⟨hread, hprintable, hcan⟩, hlisting, hfrom, hfreed⟩

/-- What the command comes to. -/
theorem Listable.ends (h : Listable sys fs argv) (std : StdSort) : ∃ out,
    Ends (processLSCommand sys std fs argv) (.ok out) ∧
      ∀ file ∈ foldersOf fs argv, ∀ q, Visits fs (flagsOf argv) file.filename q →
        HasListing sys std fs (flagsOf argv) out.directories q := by
  obtain ⟨s, regs, dirs, hs, hholds, hregs, hdirs⟩ :=
    getInfoForFilenames_ok (flagsOf argv) h.readable
  have hprintable : Printable sys (flagsOf argv) (regs.map Prod.snd) [] := hregs ▸ h.printable
  have hcan : ∀ file ∈ dirs.map Prod.snd, CanList sys fs (flagsOf argv) file.filename := by
    rw [hdirs]
    exact h.canList
  obtain ⟨regular, hends₁, -⟩ := listRegularFiles_ends std hholds hprintable
  obtain ⟨listings, h₁, hends, hlisted⟩ := listDirectories_ends std hholds hcan
  obtain ⟨n, hn⟩ := hends
  obtain ⟨hclears, -⟩ := listDirectories_done hholds (hn n (Nat.le_refl n))
  obtain ⟨h₂, h₃, hends₂, hends₃, -⟩ := hholds.freed hclears
  rw [hdirs] at hlisted
  refine ⟨_, Ends.congr (processLSCommand_eq sys std argv hs) (hends₁.bind
    (Ends.bind ⟨n, hn⟩ (hends₂.bind (hends₃.bind (Ends.const _))))), hlisted⟩

end

/-- **What the command lists**: the files first, and then exactly the directories that the
operands come to, each with what was collected of it, and with what `listFileInfo` prints of
that; with several operands that are known every directory has a header row.  All that was
allocated is freed. -/
theorem processLSCommand_output {sys : System} {std : StdSort} {fs : FileSystem}
    {argv : List Bytes} {out : Output} (hends : Ends (processLSCommand sys std fs argv) (.ok out)) :
    IsRegularListing sys std (flagsOf argv) (filesOf fs argv) out.regular ∧
    (∀ q, q ∈ out.directories.map Listing.directory ↔
      ∃ file ∈ foldersOf fs argv, Visits fs (flagsOf argv) file.filename q) ∧
    (∀ listing ∈ out.directories,
      listing.IsOf sys std fs (flagsOf argv) listing.directory) ∧
    (1 < (filesOf fs argv).length + (foldersOf fs argv).length →
      ∀ listing ∈ out.directories, listing.printHeaderRow = true) ∧
    ∀ p, out.heap.read p = none := by
  obtain ⟨n, hn⟩ := id hends
  obtain ⟨hlistable, hregular, hfrom, hfreed⟩ := processLSCommand_done (hn n (Nat.le_refl n))
  obtain ⟨out', hends', hlisted⟩ := hlistable.ends std
  obtain rfl := Except.ok.inj (hends.unique hends')
  refine ⟨hregular, ?_, ?_, ?_, hfreed⟩
  · intro q
    constructor
    · intro hq
      obtain ⟨listing, hmem, rfl⟩ := List.mem_map.mp hq
      obtain ⟨file, hfile, hlisting⟩ := hfrom listing hmem
      exact ⟨file, hfile, hlisting.visited⟩
    · rintro ⟨file, hfile, hq⟩
      obtain ⟨listing, hmem, hlisting⟩ := hlisted file hfile q hq
      exact List.mem_map.mpr ⟨listing, hmem, hlisting.directory⟩
  · intro listing hmem
    obtain ⟨file, -, hlisting⟩ := hfrom listing hmem
    exact hlisting.isOf
  · intro hmany listing hmem
    obtain ⟨file, -, hlisting⟩ := hfrom listing hmem
    exact hlisting.header (decide_eq_true hmany)

/-- `drwxr-xr-x`. -/
def openStat : Stat := ⟨0o040755, 2, 0, 0, 64, 0, 0⟩
/-- `-rw-r--r--`. -/
def fileStat : Stat := ⟨0o100644, 1, 0, 0, 5, 0, 0⟩

/-- A file `f`, and a directory `d` with a file in it. -/
def besides : FileSystem where
  readdir path := if path = ascii "d" then some [[dot], [dot, dot], ascii "x"] else none
  lstat path :=
    if path = ascii "d" then some openStat
    else if path = ascii "f" ∨ path = ascii "d/x" then some fileStat
    else none

/-- Without -R no other directory is visited. -/
theorem visits_besides {path q : Bytes} (h : Visits besides 0 path q) : path = q := by
  rcases visits_iff.mp h with hself | ⟨c, hc, -⟩
  · exact hself
  · exact absurd rfl hc.1

theorem listable_besides : Listable terminal besides [ascii "d", ascii "f"] := by
  have hfolder : ∀ file ∈ foldersOf besides [ascii "d", ascii "f"], file.filename = ascii "d" := by
    decide
  refine ⟨by unfold Readable; decide, fun _ _ => .inr (.inr (by decide)), ?_⟩
  intro file hfile
  rw [hfolder file hfile]
  refine ⟨.intro _ fun c hc => absurd rfl hc.1, ?_, ?_⟩
  · intro q hq
    obtain rfl := visits_besides hq
    exact Option.some_ne_none _
  · intro q hq entries hopened
    obtain rfl := visits_besides hq
    obtain rfl := Option.some.inj hopened
    exact fun _ _ => .inr (.inr (by decide))

/-- `ls d f` in a terminal. -/
theorem processLSCommand_output_besides : ∃ out,
    Ends (processLSCommand terminal insertionSort besides [ascii "d", ascii "f"]) (.ok out) ∧
      IsRegularListing terminal insertionSort 0 [⟨ascii "f", fileStat, by decide⟩] out.regular ∧
      ascii "d" ∈ out.directories.map Listing.directory ∧
      (∀ listing ∈ out.directories, listing.printHeaderRow = true) ∧
      ∀ p, out.heap.read p = none := by
  obtain ⟨out, hends, -⟩ := listable_besides.ends insertionSort
  obtain ⟨hregular, hdirectories, -, hheader, hfreed⟩ := processLSCommand_output hends
  refine ⟨out, hends, hregular, (hdirectories _).mpr ?_, hheader (by decide), hfreed⟩
  exact ⟨⟨ascii "d", openStat, by decide⟩, by decide, .refl⟩

end Nyctomek.Ls
