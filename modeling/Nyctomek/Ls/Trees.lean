/-
# `Ls.Trees` — recursive listing of any finite tree

Whether the recursion lists a finite tree completely, whether it ends on one, and whether it
lists all that can be listed of one in which `lstat` and `opendir` may fail anywhere.

    `Child`           the tree: an entry other than "." and "..", a directory
    `Calls`           the recursion: what is not filtered out, by paths that are cut off

Calls that are not children come of -a, and of paths that are too long: from then on the
recursion stays where it is (`not_acc_of_long`).
-/
import Nyctomek.Ls.Recursion

namespace Nyctomek.Ls

open Prog

/-- A directory in a directory. -/
def Child (fs : FileSystem) (c p : Bytes) : Prop :=
  ∃ entries n statInfo, fs.readdir p = some entries ∧ n ∈ entries ∧ n ≠ [dot] ∧ n ≠ [dot, dot] ∧
    c = p ++ slash :: n ∧ fs.lstat c = some statInfo ∧ statInfo.isDirectory

/-- How paths are resolved, as long as they fit in a file name: a slash behind a directory, and
its entry ".", are the directory itself. -/
structure Resolves (fs : FileSystem) : Prop where
  trailing : ∀ p statInfo, fs.lstat p = some statInfo → statInfo.isDirectory →
    (p ++ [slash]).length < MAX_FILE_NAME_LEN →
    fs.lstat (p ++ [slash]) = some statInfo ∧ fs.readdir (p ++ [slash]) = fs.readdir p
  here : ∀ p statInfo, fs.lstat p = some statInfo → statInfo.isDirectory →
    (p ++ [slash, dot]).length < MAX_FILE_NAME_LEN →
    fs.lstat (p ++ [slash, dot]) = some statInfo ∧ fs.readdir (p ++ [slash, dot]) = fs.readdir p

/-- Every directory can be opened and has the entries "." and "..". -/
def HasDots (fs : FileSystem) : Prop :=
  ∀ p statInfo, fs.lstat p = some statInfo → statInfo.isDirectory →
    ∃ entries, fs.readdir p = some entries ∧ [dot] ∈ entries ∧ [dot, dot] ∈ entries

/-- In directories whose paths leave no room for a name nothing is listed. -/
def LongEmpty (fs : FileSystem) (options : UInt32) (path : Bytes) : Prop :=
  ∀ q entries, Visits fs options path q → fs.readdir q = some entries →
    MAX_FILE_NAME_LEN - 2 ≤ q.length → ∀ n ∈ entries, isSkipped options n = true

section
variable {sys : System} {std : StdSort} {fs : FileSystem} {options : UInt32}
  {heap : Heap FileInfoListNode} {path q n : Bytes} {entries : List Bytes} {statInfo : Stat}

/-! ## Calls -/

/-- An entry that is a directory under the path that is left of it. -/
theorem calls_snprintf (hR : options &&& DASH_R ≠ 0) (hopened : fs.readdir path = some entries) (hn : n ∈ entries)
    (hskip : isSkipped options n = false) {c : Bytes} (hc : (snprintf (path ++ slash :: n)).1 = c)
    (hstat : fs.lstat c = some statInfo) (hdir : statInfo.isDirectory) : Calls fs options c path := by
  subst hc
  refine ⟨hR, entries, ⟨_, statInfo, (snprintf (path ++ slash :: n)).2⟩, hopened, ?_, hdir, rfl⟩
  refine mem_collect.mpr ⟨n, hn, hskip, ?_⟩
  simp only [getFileInfo, hstat]

theorem Calls.cases {c : Bytes} (h : Calls fs options c path) :
    ∃ entries n statInfo, fs.readdir path = some entries ∧ n ∈ entries ∧ isSkipped options n = false ∧
      (snprintf (path ++ slash :: n)).1 = c ∧ fs.lstat c = some statInfo ∧ statInfo.isDirectory := by
  obtain ⟨-, entries, file, hopened, hfile, hdir, rfl⟩ := h
  obtain ⟨n, hn, hskip, hinfo⟩ := mem_collect.mp hfile
  obtain ⟨hname, hstat⟩ := lstat_of_getFileInfo hinfo
  rw [← hname] at hstat
  exact ⟨entries, n, file.statInfo, hopened, hn, hskip, hname.symm, hstat, hdir⟩

/-- All calls are for directories, by paths that fit. -/
theorem Visits.directory (h : Visits fs options path q) (hstat : fs.lstat path = some statInfo)
    (hdir : statInfo.isDirectory) (hlen : path.length < MAX_FILE_NAME_LEN) :
    (∃ statInfo, fs.lstat q = some statInfo ∧ statInfo.isDirectory) ∧ q.length < MAX_FILE_NAME_LEN := by
  induction h with
  | refl => exact ⟨⟨statInfo, hstat, hdir⟩, hlen⟩
  | tail _ hcall _ =>
      obtain ⟨_, n, statInfo', -, -, -, rfl, hstat', hdir'⟩ := hcall.cases
      exact ⟨⟨statInfo', hstat', hdir'⟩, (snprintf _).2⟩

theorem Visits.acc (h : Visits fs options path q) (hacc : Acc (Calls fs options) path) :
    Acc (Calls fs options) q := by
  induction h with
  | refl => exact hacc
  | tail _ hcall ih => exact ih.inv hcall

theorem not_acc_of_self {p : Bytes} (h : Calls fs options p p) : ¬ Acc (Calls fs options) p := by
  intro hacc
  induction hacc with
  | intro p _ ih => exact ih p h h

/-! ## Calls that never end -/

theorem snprintf_of_length {s : Bytes} (hlen : s.length = MAX_FILE_NAME_LEN - 1) (t : Bytes) :
    (snprintf (s ++ t)).1 = s := by
  show (s ++ t).take (MAX_FILE_NAME_LEN - 1) = s
  rw [← hlen, List.take_left]

/-- A directory with a path of 1023 bytes calls itself, whatever entry it has. -/
theorem calls_self (hR : options &&& DASH_R ≠ 0) (hlen : path.length = MAX_FILE_NAME_LEN - 1) (hopened : fs.readdir path = some entries)
    (hn : n ∈ entries) (hskip : isSkipped options n = false) (hstat : fs.lstat path = some statInfo)
    (hdir : statInfo.isDirectory) : Calls fs options path path :=
  calls_snprintf hR hopened hn hskip (snprintf_of_length hlen _) hstat hdir

/-- **A path without room for a name** leads to the same directory for ever. -/
theorem not_acc_of_long (hR : options &&& DASH_R ≠ 0) (hfs : Resolves fs) (hlong : MAX_FILE_NAME_LEN - 2 ≤ path.length)
    (hlen : path.length < MAX_FILE_NAME_LEN) (hopened : fs.readdir path = some entries) (hn : n ∈ entries)
    (hskip : isSkipped options n = false) (hstat : fs.lstat path = some statInfo)
    (hdir : statInfo.isDirectory) : ¬ Acc (Calls fs options) path := by
  have hmax : MAX_FILE_NAME_LEN = 1024 := rfl
  rcases Nat.lt_or_ge path.length (MAX_FILE_NAME_LEN - 1) with hshort | hfull
  · -- a slash still fits
    have hslash : (path ++ [slash]).length = MAX_FILE_NAME_LEN - 1 := by
      rw [List.length_append, List.length_singleton]
      omega
    obtain ⟨hstat', hopened'⟩ := hfs.trailing path statInfo hstat hdir (by omega)
    rw [hopened] at hopened'
    have hcut : (snprintf (path ++ slash :: n)).1 = path ++ [slash] := by
      rw [List.append_cons]
      exact snprintf_of_length hslash n
    intro hacc
    have hnext := hacc.inv (calls_snprintf hR hopened hn hskip hcut hstat' hdir)
    exact not_acc_of_self (calls_self hR hslash hopened' hn hskip hstat' hdir) hnext
  · exact not_acc_of_self (calls_self hR (by omega) hopened hn hskip hstat hdir)

theorem isSkipped_of_dash_a (ha : options &&& DASH_a ≠ 0) (name : Bytes) :
    isSkipped options name = false := by
  simp [isSkipped, ha]

/-- **With -a** every directory calls itself by its entry ".". -/
theorem not_acc_of_dash_a (hR : options &&& DASH_R ≠ 0) (hfs : Resolves fs) (hdots : HasDots fs)
    (ha : options &&& DASH_a ≠ 0)
    (hstat : fs.lstat path = some statInfo) (hdir : statInfo.isDirectory)
    (hlen : path.length < MAX_FILE_NAME_LEN) : ¬ Acc (Calls fs options) path := by
  intro hacc
  induction hacc with
  | intro path hacc ih =>
      obtain ⟨entries, hopened, hdot, -⟩ := hdots path statInfo hstat hdir
      have hskip := isSkipped_of_dash_a ha [dot]
      rcases Nat.lt_or_ge (path ++ [slash, dot]).length MAX_FILE_NAME_LEN with hshort | hlong
      · obtain ⟨hstat', -⟩ := hfs.here path statInfo hstat hdir hshort
        have hcall : Calls fs options (path ++ [slash, dot]) path := by
          refine calls_snprintf hR hopened hdot hskip ?_ hstat' hdir
          rw [snprintf_of_short hshort]
        exact ih _ hcall hstat' hshort
      · refine not_acc_of_long hR hfs ?_ hlen hopened hdot hskip hstat hdir (.intro path hacc)
        rw [List.length_append] at hlong
        exact Nat.sub_le_of_le_add hlong

/-! ## Calls that end -/

theorem isSkipped_dots (ha : options &&& DASH_a = 0) (hskip : isSkipped options n = false) :
    n ≠ [dot] ∧ n ≠ [dot, dot] := by
  rw [← Bool.not_eq_true, isSkipped_iff ha, not_not] at hskip
  exact ⟨hskip.1, hskip.2.1⟩

/-- **A finite tree** has well-founded calls, without -a and without long paths. -/
theorem acc_of_child (ha : options &&& DASH_a = 0) (htree : Acc (Child fs) path)
    (hlong : LongEmpty fs options path) : Acc (Calls fs options) path := by
  induction htree with
  | intro path _ ih =>
      refine .intro path ?_
      intro c hc
      have hlong' : LongEmpty fs options c := fun q entries hq => hlong q entries (hq.head hc)
      obtain ⟨entries, n, statInfo, hopened, hn, hskip, rfl, hstat, hdir⟩ := hc.cases
      obtain ⟨hdot, hdotdot⟩ := isSkipped_dots ha hskip
      rcases Nat.lt_or_ge (path ++ slash :: n).length MAX_FILE_NAME_LEN with hshort | hcut
      · rw [snprintf_of_short hshort] at hc hlong' hstat ⊢
        exact ih _ ⟨entries, n, statInfo, hopened, hn, hdot, hdotdot, rfl, hstat, hdir⟩ hlong'
      · -- a path that has been cut off leaves no room
        refine .intro _ ?_
        intro c' hc'
        obtain ⟨entries', n', -, hopened', hn', hskip', -⟩ := hc'.cases
        have hlen : MAX_FILE_NAME_LEN - 2 ≤ (snprintf (path ++ slash :: n)).1.length := by
          have hmax : MAX_FILE_NAME_LEN = 1024 := rfl
          show _ ≤ ((path ++ slash :: n).take (MAX_FILE_NAME_LEN - 1)).length
          rw [List.length_take]
          omega
        rw [hlong' _ _ .refl hopened' hlen n' hn'] at hskip'
        cases hskip'

theorem longEmpty_of_acc (hR : options &&& DASH_R ≠ 0) (hfs : Resolves fs)
    (hstat : fs.lstat path = some statInfo)
    (hdir : statInfo.isDirectory) (hlen : path.length < MAX_FILE_NAME_LEN)
    (hacc : Acc (Calls fs options) path) : LongEmpty fs options path := by
  intro q entries hq hopened hlong n hn
  obtain ⟨⟨statInfo', hstat', hdir'⟩, hlen'⟩ := hq.directory hstat hdir hlen
  by_contra hskip
  rw [Bool.not_eq_true] at hskip
  exact not_acc_of_long hR hfs hlong hlen' hopened hn hskip hstat' hdir' (hq.acc hacc)

theorem allOpen_of_dots (hdots : HasDots fs) (hstat : fs.lstat path = some statInfo)
    (hdir : statInfo.isDirectory) (hlen : path.length < MAX_FILE_NAME_LEN) :
    AllOpen fs options path := by
  intro q hq
  obtain ⟨⟨statInfo', hstat', hdir'⟩, -⟩ := hq.directory hstat hdir hlen
  obtain ⟨entries, hopened, -⟩ := hdots q statInfo' hstat' hdir'
  simp [hopened]

end

/-- **Which recursions end**, on a finite tree of directories with "." and "..", whatever there is
to print on: those without -a, unless something is to be listed where the path leaves no room for
a name. -/
theorem recursion_ends_iff (std : StdSort) (fs : FileSystem) (options : UInt32)
    (hR : options &&& DASH_R ≠ 0) (hfs : Resolves fs) (hdots : HasDots fs) (directoryInfo : FileInfo)
    (hstat : fs.lstat directoryInfo.filename = some directoryInfo.statInfo)
    (hdir : directoryInfo.statInfo.isDirectory) (htree : Acc (Child fs) directoryInfo.filename)
    (heap : Heap FileInfoListNode) (printHeaderRow : Bool) :
    (∀ sys : System, ∃ r, Ends (fun fuel =>
      listDirectoryContents sys std fs options fuel heap directoryInfo printHeaderRow) r) ↔
      options &&& DASH_a = 0 ∧ LongEmpty fs options directoryInfo.filename := by
  have hopen : AllOpen fs options directoryInfo.filename :=
    allOpen_of_dots hdots hstat hdir directoryInfo.terminated
  constructor
  · intro hends
    obtain ⟨r, fuel, hdone⟩ := hends calm
    have hacc : Acc (Calls fs options) directoryInfo.filename := by
      rcases listDirectoryContents_done fuel heap directoryInfo printHeaderRow r
        (hdone fuel (Nat.le_refl fuel)) with ⟨_, _, -, -, hacc, -⟩ | ⟨-, hfail⟩
      · exact hacc
      · exact absurd ⟨hopen, fun _ _ _ _ => printable_calm _ _ _⟩ hfail
    refine ⟨?_, longEmpty_of_acc hR hfs hstat hdir directoryInfo.terminated hacc⟩
    by_contra ha
    exact not_acc_of_dash_a hR hfs hdots ha hstat hdir directoryInfo.terminated hacc
  · rintro ⟨ha, hlong⟩ sys
    exact listDirectoryContents_terminates (acc_of_child ha htree hlong) heap directoryInfo
      printHeaderRow rfl

/-! ## Complete listings, and failures -/

/-- The paths of all these entries fit in a file name. -/
def PathsFit (fs : FileSystem) (options : UInt32) (path : Bytes) : Prop :=
  ∀ q entries n statInfo, Reachable fs options path q → fs.readdir q = some entries → n ∈ entries →
    Visible options n → fs.lstat (q ++ slash :: n) = some statInfo →
    (q ++ slash :: n).length < MAX_FILE_NAME_LEN

section
variable {sys : System} {std : StdSort} {fs : FileSystem} {options : UInt32} {path q n : Bytes}
  {entries : List Bytes} {statInfo : Stat}

theorem isSkipped_of_visible (ha : options &&& DASH_a = 0) (hn : Visible options n) :
    isSkipped options n = false := by
  rw [← Bool.not_eq_true, isSkipped_iff ha, not_not]
  exact hn

/-- What is come to has its call. -/
theorem Reachable.visits (h : Reachable fs options path q) (hR : options &&& DASH_R ≠ 0)
    (ha : options &&& DASH_a = 0) (hfit : PathsFit fs options path) : Visits fs options path q := by
  induction h with
  | here path => exact .refl
  | through opened entry visible known directory rest ih =>
      have hshort := hfit _ _ _ _ (.here _) opened entry visible known
      refine .head ?_ (ih fun q entries n statInfo hq =>
        hfit q entries n statInfo (.through opened entry visible known directory hq))
      refine calls_snprintf hR opened entry (isSkipped_of_visible ha visible) ?_ known directory
      rw [snprintf_of_short hshort]

/-- An entry whose path fits is among the files of its directory's listing. -/
theorem mem_of_listing (ha : options &&& DASH_a = 0) (hn : n ∈ entries) (hvisible : Visible options n)
    (hshort : (path ++ slash :: n).length < MAX_FILE_NAME_LEN)
    (hknown : fs.lstat (path ++ slash :: n) = some statInfo) :
    ⟨path ++ slash :: n, statInfo, hshort⟩ ∈ listedFiles std fs options path entries := by
  rw [listedFiles, (sortedFiles_perm std options _).mem_iff, mem_collect]
  refine ⟨n, hn, isSkipped_of_visible ha hvisible, ?_⟩
  rw [snprintf_of_short hshort]
  simp only [getFileInfo, hknown]

/-- In a directory tree all paths fit. -/
theorem DirTree.pathsFit (htree : DirTree fs path) : PathsFit fs options path := by
  intro q entries n statInfo hq
  induction htree with
  | @directory path entries' opened _ _ short _ _ ih =>
      intro hopened hn hvisible hknown
      cases hq with
      | here =>
          obtain rfl := Option.some.inj (opened.symm.trans hopened)
          exact short n hn hvisible.1 hvisible.2.1
      | @through _ _ n' _ statInfo' opened' entry visible known directory rest =>
          obtain rfl := Option.some.inj (opened.symm.trans opened')
          exact ih n' entry visible.1 visible.2.1 statInfo' known directory rest hopened hn hvisible
            hknown

end

/-- **Which trees are listed completely**, each directory that is come to once and each of its
entries that is not filtered out once in it: those in which all of these can be printed. -/
theorem listDirectoryContents_complete_iff (sys : System) (std : StdSort) (fs : FileSystem)
    (options : UInt32) (hR : options &&& DASH_R ≠ 0) (ha : options &&& DASH_a = 0)
    (directoryInfo : FileInfo) (htree : DirTree fs directoryInfo.filename)
    (heap : Heap FileInfoListNode) (printHeaderRow : Bool) :
    (∃ listings heap', Ends (fun fuel =>
        listDirectoryContents sys std fs options fuel heap directoryInfo printHeaderRow)
          (.ok (listings, heap')) ∧ ListsTree fs options directoryInfo.filename listings) ↔
      ∀ q, Reachable fs options directoryInfo.filename q → DirectoryPrintable sys fs options q := by
  constructor
  · rintro ⟨listings, heap', hends, -⟩ q hq
    obtain ⟨-, -, hprintable⟩ := (ends_iff heap directoryInfo printHeaderRow).mp ⟨listings, heap', hends⟩
    exact hprintable q (hq.visits hR ha htree.pathsFit)
  · intro hprintable
    obtain ⟨listings, heap', hends, -, hlists⟩ :=
      htree.listsBelow ha hR hprintable directoryInfo rfl heap printHeaderRow
    exact ⟨listings, heap', hends, hlists⟩

/-- A terminal of 80 columns, and a file system that knows who owns what. -/
def terminal : System := { calm with isatty := true, ws_col := some 80 }

/-- The directories of the small tree. -/
theorem readdir_smallTree {path : Bytes} {entries : List Bytes}
    (h : smallTree.readdir path = some entries) :
    path = ascii "d" ∨ path = ascii "d/b" ∨ path = ascii "d/.c" := by
  by_contra hpath
  obtain ⟨hd, hbelow⟩ := not_or.mp hpath
  simp only [smallTree, if_neg hd, if_neg hbelow] at h
  cases h

/-- `ls -R d` in a terminal of 80 columns. -/
theorem smallTree_listed : ∃ listings heap', Ends (fun fuel =>
      listDirectoryContents terminal insertionSort smallTree DASH_R fuel Heap.empty
        ⟨ascii "d", ⟨0o040755, 2, 0, 0, 64, 0, 1262304000⟩, by decide⟩ false)
        (.ok (listings, heap')) ∧ ListsTree smallTree DASH_R (ascii "d") listings := by
  refine (listDirectoryContents_complete_iff terminal insertionSort smallTree DASH_R (by decide)
    (by decide) _ smallTree_dirTree Heap.empty false).mpr ?_
  intro q _ entries hopened
  rcases readdir_smallTree hopened with rfl | rfl | rfl <;>
    obtain rfl := Option.some.inj hopened <;> refine fun _ _ => .inr (.inr ?_) <;> decide

/-- `COLUMNS=3 ls -R -C d` divides by zero at once. -/
theorem not_smallTree_listed : DirTree smallTree (ascii "d") ∧ ¬ ∃ listings heap', Ends (fun fuel =>
      listDirectoryContents { terminal with columns := some 3 } insertionSort smallTree
        (DASH_R ||| DASH_C) fuel Heap.empty
        ⟨ascii "d", ⟨0o040755, 2, 0, 0, 64, 0, 1262304000⟩, by decide⟩ false)
        (.ok (listings, heap')) ∧ ListsTree smallTree (DASH_R ||| DASH_C) (ascii "d") listings := by
  refine ⟨smallTree_dirTree, ?_⟩
  rintro ⟨listings, heap', hends, -⟩
  obtain ⟨-, -, hprintable⟩ := (ends_iff Heap.empty _ false).mp ⟨listings, heap', hends⟩
  have hcolumns := hprintable _ .refl _ rfl (by decide) (.inl (by decide))
  exact absurd hcolumns (by decide)

/-- The run comes to its end without a fault, and has listed every entry that is not filtered
out and that `lstat` knows, in every directory that is come to through open ones. -/
def ListsReachable (sys : System) (std : StdSort) (fs : FileSystem) (options : UInt32)
    (directoryInfo : FileInfo) (heap : Heap FileInfoListNode) (printHeaderRow : Bool) : Prop :=
  ∃ listings heap', Ends (fun fuel =>
      listDirectoryContents sys std fs options fuel heap directoryInfo printHeaderRow)
        (.ok (listings, heap')) ∧
    ∀ q entries n statInfo, Reachable fs options directoryInfo.filename q →
      fs.readdir q = some entries → n ∈ entries → Visible options n →
      fs.lstat (q ++ slash :: n) = some statInfo → ∃ listing ∈ listings, listing.directory = q ∧
        ∃ file ∈ listing.fileInfo, file.filename = q ++ slash :: n ∧ file.statInfo = statInfo

/-- **Where errors stay local**: where there are no errors of `opendir`, all paths fit and all
can be printed.  Entries that `lstat` does not know do no harm. -/
theorem listsReachable_iff (sys : System) (std : StdSort) (fs : FileSystem) (options : UInt32)
    (hR : options &&& DASH_R ≠ 0) (ha : options &&& DASH_a = 0) (hfs : Resolves fs)
    (directoryInfo : FileInfo) (hstat : fs.lstat directoryInfo.filename = some directoryInfo.statInfo)
    (hdir : directoryInfo.statInfo.isDirectory) (htree : Acc (Child fs) directoryInfo.filename)
    (heap : Heap FileInfoListNode) (printHeaderRow : Bool) :
    ListsReachable sys std fs options directoryInfo heap printHeaderRow ↔
      AllOpen fs options directoryInfo.filename ∧ AllPrintable sys fs options directoryInfo.filename ∧
        LongEmpty fs options directoryInfo.filename ∧ PathsFit fs options directoryInfo.filename := by
  constructor
  · rintro ⟨listings, heap', hends, hlisted⟩
    obtain ⟨hacc, hopen, hprintable⟩ :=
      (ends_iff heap directoryInfo printHeaderRow).mp ⟨listings, heap', hends⟩
    refine ⟨hopen, hprintable, longEmpty_of_acc hR hfs hstat hdir directoryInfo.terminated hacc, ?_⟩
    intro q entries n statInfo hq hopened hn hvisible hknown
    obtain ⟨listing, -, -, file, -, hname, -⟩ :=
      hlisted q entries n statInfo hq hopened hn hvisible hknown
    rw [← hname]
    exact file.terminated
  · rintro ⟨hopen, hprintable, hlong, hfit⟩
    obtain ⟨listings, heap', hends, hall⟩ := listDirectoryContents_ends
      (acc_of_child ha htree hlong) hopen hprintable heap directoryInfo printHeaderRow rfl
    refine ⟨listings, heap', hends, ?_⟩
    intro q entries n statInfo hq hopened hn hvisible hknown
    obtain ⟨listing, hlisting, hdirectory, ⟨entries', hopened', hfiles⟩, -⟩ :=
      hall q (hq.visits hR ha hfit)
    obtain rfl : entries = entries' := Option.some.inj (hopened.symm.trans hopened')
    have hshort := hfit q entries n statInfo hq hopened hn hvisible hknown
    refine ⟨listing, hlisting, hdirectory, ⟨q ++ slash :: n, statInfo, hshort⟩, ?_, rfl, rfl⟩
    rw [hfiles]
    exact mem_of_listing ha hn hvisible hshort hknown

/-! ## A root with directories in it -/

/-- One component of a path: where it leads from the root, or from a directory in it. -/
def component (directories : List Bytes) (place : List Bytes) (c : Bytes) : Option (List Bytes) :=
  if c = [] ∨ c = [dot] then some place
  else if c = [dot, dot] then some place.tail
  else if place = [] ∧ c ∈ directories then some [c]
  else none

def resolve (directories : List Bytes) (path : Bytes) : Option (List Bytes) :=
  if path = [] then none else (path.splitOn slash).foldlM (component directories) []

def directoryStat : Stat := ⟨0o040311, 2, 0, 0, 64, 0, 0⟩

/-- The root, and directories in it with the entries `inside`, if they can be opened. -/
def rootWith (entries directories : List Bytes) (inside : Option (List Bytes)) : FileSystem where
  readdir path := (resolve directories path).bind fun place =>
    if place = [] then some entries else inside
  lstat path := (resolve directories path).map fun _ => directoryStat

section
variable {entries directories names : List Bytes} {inside : Option (List Bytes)} {path c n : Bytes}
  {place : List Bytes}

theorem resolve_append (h : resolve directories path = some place) (t : Bytes) :
    resolve directories (path ++ slash :: t)
      = (t.splitOn slash).foldlM (component directories) place := by
  unfold resolve at h ⊢
  split at h
  · cases h
  · rw [if_neg (by simp), List.splitOn_append_cons_self, List.foldlM_append, h]
    rfl

theorem resolves_rootWith (entries directories : List Bytes) (inside : Option (List Bytes)) :
    Resolves (rootWith entries directories inside) := by
  have hsame : ∀ p, (∃ statInfo, (rootWith entries directories inside).lstat p = some statInfo) →
      ∀ t ∈ [[], [dot]], resolve directories (p ++ slash :: t) = resolve directories p := by
    rintro p ⟨statInfo, hstat⟩ t ht
    obtain ⟨place, hplace, -⟩ := Option.map_eq_some_iff.mp hstat
    rw [resolve_append hplace, hplace]
    rcases List.mem_cons.mp ht with rfl | ht
    · rfl
    · rw [List.mem_singleton.mp ht]
      rfl
  constructor
  · intro p statInfo hstat _ _
    have hslash := hsame p ⟨statInfo, hstat⟩ [] (by simp)
    simp only [rootWith, hslash] at hstat ⊢
    exact ⟨hstat, trivial⟩
  · intro p statInfo hstat _ _
    have hdot := hsame p ⟨statInfo, hstat⟩ [dot] (by simp)
    simp only [rootWith, hdot] at hstat ⊢
    exact ⟨hstat, trivial⟩

theorem readdir_rootWith (h : (rootWith entries directories inside).readdir path = some names) :
    ∃ place, resolve directories path = some place ∧
      (place = [] ∧ entries = names ∨ place ≠ [] ∧ inside = some names) := by
  obtain ⟨place, hplace, hnames⟩ := Option.bind_eq_some_iff.mp h
  refine ⟨place, hplace, ?_⟩
  split at hnames
  · next hroot => exact .inl ⟨hroot, Option.some.inj hnames⟩
  · next hbelow => exact .inr ⟨hbelow, hnames⟩

/-- Only in the root there are directories. -/
theorem acc_rootWith (hnames : ∀ n ∈ entries, slash ∉ n ∧ n ≠ [])
    (hinside : ∀ n ∈ inside.getD [], n = [dot] ∨ n = [dot, dot]) (path : Bytes) :
    Acc (Child (rootWith entries directories inside)) path := by
  have hbelow : ∀ p place, resolve directories p = some place → place ≠ [] →
      Acc (Child (rootWith entries directories inside)) p := by
    intro p place hplace hne
    refine .intro p ?_
    rintro c ⟨names, n, statInfo, hopened, hn, hdot, hdotdot, -⟩
    obtain ⟨place', hplace', ⟨hroot, -⟩ | ⟨-, rfl⟩⟩ := readdir_rootWith hopened
    · exact absurd (Option.some.inj (hplace.symm.trans hplace') ▸ hroot) hne
    · exact ((hinside n hn).elim hdot hdotdot).elim
  refine .intro path ?_
  rintro c ⟨names, n, statInfo, hopened, hn, hdot, hdotdot, rfl, hstat, -⟩
  obtain ⟨place, hplace, ⟨rfl, rfl⟩ | ⟨-, rfl⟩⟩ := readdir_rootWith hopened
  · obtain ⟨place', hplace', -⟩ := Option.map_eq_some_iff.mp hstat
    obtain ⟨hslash, hne⟩ := hnames n hn
    refine hbelow _ place' hplace' ?_
    rw [resolve_append hplace, List.splitOn_eq_singleton hslash] at hplace'
    have hstep : component directories [] n = some place' := by simpa [List.foldlM] using hplace'
    simp only [component, hne, hdot, hdotdot, false_or, if_false, true_and] at hstep
    split at hstep
    · rw [← Option.some.inj hstep]
      exact List.cons_ne_nil _ _
    · cases hstep
  · exact ((hinside n hn).elim hdot hdotdot).elim

theorem hasDots_rootWith (hentries : [dot] ∈ entries ∧ [dot, dot] ∈ entries)
    (hnames : [dot] ∈ names ∧ [dot, dot] ∈ names) :
    HasDots (rootWith entries directories (some names)) := by
  intro p statInfo hstat _
  obtain ⟨place, hplace, -⟩ := Option.map_eq_some_iff.mp hstat
  by_cases hroot : place = []
  · exact ⟨entries, by simp [rootWith, hplace, hroot], hentries⟩
  · exact ⟨names, by simp [rootWith, hplace, hroot], hnames⟩

end

/-- The root by the path ".". -/
def rootInfo : FileInfo := ⟨[dot], directoryStat, by decide⟩

/-- A root with an empty directory in it, and an entry that `lstat` does not know. -/
def nested : FileSystem :=
  rootWith [[dot], [dot, dot], ascii "b", ascii "c"] [ascii "b"] (some [[dot], [dot, dot]])

theorem hasDots_nested : HasDots nested := hasDots_rootWith (by decide) (by decide)

theorem nested_root {n : Bytes} {entries : List Bytes} {statInfo : Stat}
    (hopened : nested.readdir rootInfo.filename = some entries) (hn : n ∈ entries)
    (hskip : isSkipped DASH_R n = false)
    (hstat : nested.lstat (rootInfo.filename ++ slash :: n) = some statInfo) : n = ascii "b" := by
  have hall : ∀ n ∈ [[dot], [dot, dot], ascii "b", ascii "c"], isSkipped DASH_R n = false →
      nested.lstat (rootInfo.filename ++ slash :: n) ≠ none → n = ascii "b" := by decide
  obtain rfl := Option.some.inj hopened
  exact hall n hn hskip (by simp [hstat])

theorem nested_inside {n : Bytes} {entries : List Bytes}
    (hopened : nested.readdir (ascii "./b") = some entries) (hn : n ∈ entries) :
    isSkipped DASH_R n = true := by
  have hall : ∀ n ∈ [[dot], [dot, dot]], isSkipped DASH_R n = true := by decide
  obtain rfl := Option.some.inj hopened
  exact hall n hn

/-- Without -a there is one directory below ".". -/
theorem visits_nested {q : Bytes} (h : Visits nested DASH_R rootInfo.filename q) :
    q = rootInfo.filename ∨ q = ascii "./b" := by
  induction h with
  | refl => exact .inl rfl
  | tail _ hcall ih =>
      obtain ⟨entries, n, statInfo, hopened, hn, hskip, rfl, hstat, -⟩ := hcall.cases
      rcases ih with rfl | rfl
      · have hshort : ∀ n ∈ [[dot], [dot, dot], ascii "b", ascii "c"],
            (snprintf (rootInfo.filename ++ slash :: n)).1 = rootInfo.filename ++ slash :: n := by decide
        obtain rfl := Option.some.inj hopened
        rw [hshort n hn] at hstat ⊢
        exact .inr (nested_root rfl hn hskip hstat ▸ rfl)
      · rw [nested_inside hopened hn] at hskip
        cases hskip

theorem reachable_nested {q : Bytes} (h : Reachable nested DASH_R rootInfo.filename q) :
    q = rootInfo.filename ∨ q = ascii "./b" := by
  cases h with
  | here => exact .inl rfl
  | through opened entry visible known directory rest =>
      obtain rfl := nested_root opened entry (isSkipped_of_visible (by decide) visible) known
      cases rest with
      | here => exact .inr rfl
      | through opened entry visible known directory rest =>
          have hskip := isSkipped_of_visible (by decide) visible
          rw [nested_inside opened entry] at hskip
          cases hskip

theorem longEmpty_nested : LongEmpty nested DASH_R rootInfo.filename := by
  intro q entries hq _ hlong
  rcases visits_nested hq with rfl | rfl
  · exact absurd hlong (by decide)
  · exact absurd hlong (by decide)

/-- `ls -R` of a directory with one in it, in a terminal of 80 columns. -/
theorem recursion_ends_nested : ∃ r, Ends (fun fuel =>
    listDirectoryContents terminal insertionSort nested DASH_R fuel Heap.empty rootInfo false) r := by
  refine (recursion_ends_iff insertionSort _ DASH_R (by decide) (resolves_rootWith _ _ _) hasDots_nested
    rootInfo rfl (by decide) (acc_rootWith (by decide) (by decide) _) Heap.empty false).mpr
    ⟨by decide, longEmpty_nested⟩ terminal

/-- `ls -R -a` of an empty directory, with the output to a pipe. -/
theorem not_recursion_ends_all :
    Acc (Child (rootWith [[dot], [dot, dot]] [] (some [[dot], [dot, dot]]))) rootInfo.filename ∧
    ¬ ∃ r, Ends (fun fuel => listDirectoryContents pipe insertionSort
      (rootWith [[dot], [dot, dot]] [] (some [[dot], [dot, dot]])) (DASH_R ||| DASH_a) fuel
      Heap.empty rootInfo false) r := by
  refine ⟨acc_rootWith (by decide) (by decide) _, ?_⟩
  rintro ⟨r, fuel, hdone⟩
  have hdots : HasDots (rootWith [[dot], [dot, dot]] [] (some [[dot], [dot, dot]])) :=
    hasDots_rootWith (by decide) (by decide)
  have hstat : (rootWith [[dot], [dot, dot]] [] (some [[dot], [dot, dot]])).lstat rootInfo.filename
      = some directoryStat := rfl
  have hprintable : ∀ files relativePath,
      Printable pipe (DASH_R ||| DASH_a) files relativePath := by
    intro files relativePath
    rw [Printable, if_neg (by decide)]
    exact fun _ h => absurd h (by decide)
  rcases listDirectoryContents_done fuel Heap.empty rootInfo false r (hdone fuel (Nat.le_refl fuel))
    with ⟨_, _, -, -, hall⟩ | ⟨-, hfail⟩
  · exact not_acc_of_dash_a (by decide) (resolves_rootWith _ _ _) hdots (by decide) hstat (by decide)
      rootInfo.terminated hall.acc
  · exact hfail ⟨allOpen_of_dots hdots hstat (by decide) rootInfo.terminated,
      fun _ _ _ _ => hprintable _ _⟩

/-- And both of them are listed there. -/
theorem listsReachable_nested :
    ListsReachable terminal insertionSort nested DASH_R rootInfo Heap.empty false := by
  refine (listsReachable_iff terminal insertionSort _ DASH_R (by decide) (by decide)
    (resolves_rootWith _ _ _) rootInfo rfl (by decide) (acc_rootWith (by decide) (by decide) _)
    Heap.empty false).mpr ⟨?_, ?_, longEmpty_nested, ?_⟩
  · intro q hq
    rcases visits_nested hq with rfl | rfl <;> exact Option.some_ne_none _
  · intro q hq entries hopened
    rcases visits_nested hq with rfl | rfl <;> obtain rfl := Option.some.inj hopened <;>
      refine fun _ _ => .inr (.inr ?_) <;> decide
  · intro q entries n _ hq hopened hn _ _
    have hroot : ∀ n ∈ [[dot], [dot, dot], ascii "b", ascii "c"],
        (rootInfo.filename ++ slash :: n).length < MAX_FILE_NAME_LEN := by decide
    have hinside : ∀ n ∈ [[dot], [dot, dot]],
        (ascii "./b" ++ slash :: n).length < MAX_FILE_NAME_LEN := by decide
    rcases reachable_nested hq with rfl | rfl
    · obtain rfl := Option.some.inj hopened
      exact hroot n hn
    · obtain rfl := Option.some.inj hopened
      exact hinside n hn

/-- `ls -R` of a directory with one that cannot be opened. -/
theorem not_listsReachable_closed :
    Acc (Child (rootWith [[dot], [dot, dot], ascii "b"] [ascii "b"] none)) rootInfo.filename ∧
    ¬ ListsReachable terminal insertionSort
      (rootWith [[dot], [dot, dot], ascii "b"] [ascii "b"] none) DASH_R rootInfo Heap.empty false := by
  refine ⟨acc_rootWith (by decide) (by decide) _, ?_⟩
  rintro ⟨listings, heap', hends, -⟩
  obtain ⟨-, hopen, -⟩ := (ends_iff Heap.empty rootInfo false).mp ⟨listings, heap', hends⟩
  have hentry : ascii "b" ∈ [[dot], [dot, dot], ascii "b"] := by decide
  have hcall : Calls (rootWith [[dot], [dot, dot], ascii "b"] [ascii "b"] none) DASH_R
      (rootInfo.filename ++ slash :: ascii "b") rootInfo.filename :=
    calls_snprintf (by decide) rfl hentry (by decide) rfl rfl (by decide)
  exact hopen _ (.single hcall) rfl

end Nyctomek.Ls
