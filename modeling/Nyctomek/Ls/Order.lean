/-
# `Ls.Order` — the order that the options ask for, and the order that comes out

The comparators see the sizes and the times as an `int`, and the sizes only.  So there are
two orders, by the numbers as they are and by what is left of them, and a sort by the second
is in the first only if nothing is lost.

    asked for                          compared by
    -S      the size, downwards        the size as an `int`, downwards
    -t      the time, downwards;       the time as an `int`, downwards;
            then the name              then the name
    else    the name                   the name

Files of one size are equal to the comparator, so that they come as `qsort` has them.
-/
import Nyctomek.Ls.Directories

namespace Nyctomek.Ls

open Prog

variable {options : UInt32} {files : List FileInfo}

/-! ## What is asked for -/

/-- Whether a file may come before another one, without -r. -/
def Precedes (options : UInt32) (l r : FileInfo) : Prop :=
  if options &&& DASH_S ≠ 0 then r.statInfo.st_size ≤ l.statInfo.st_size
  else if options &&& DASH_t ≠ 0 then
    r.statInfo.st_mtime < l.statInfo.st_mtime ∨
      (l.statInfo.st_mtime = r.statInfo.st_mtime ∧ l.filename ≤ r.filename)
  else l.filename ≤ r.filename

/-- The order of a listing. -/
def InOrder (options : UInt32) (files : List FileInfo) : Prop :=
  if options &&& DASH_r ≠ 0 then files.Pairwise fun l r => Precedes options r l
  else files.Pairwise (Precedes options)

instance (options : UInt32) (l r : FileInfo) : Decidable (Precedes options l r) :=
  inferInstanceAs (Decidable (ite _ _ (ite _ _ _)))

instance (options : UInt32) (files : List FileInfo) : Decidable (InOrder options files) :=
  inferInstanceAs (Decidable (ite _ _ _))

/-- Nothing that decides the order is lost in the 32 bits of an `int`. -/
def KeysFit (options : UInt32) (files : List FileInfo) : Prop :=
  if options &&& DASH_S ≠ 0 then
    ∀ l ∈ files, ∀ r ∈ files, l.statInfo.st_size < r.statInfo.st_size →
      toInt l.statInfo.st_size < toInt r.statInfo.st_size
  else if options &&& DASH_t ≠ 0 then
    ∀ l ∈ files, ∀ r ∈ files, l.statInfo.st_mtime < r.statInfo.st_mtime →
      timeToInt l.statInfo.st_mtime < timeToInt r.statInfo.st_mtime ∨
        (timeToInt l.statInfo.st_mtime = timeToInt r.statInfo.st_mtime ∧ r.filename < l.filename)
  else True

instance (options : UInt32) (files : List FileInfo) : Decidable (KeysFit options files) :=
  inferInstanceAs (Decidable (ite _ _ (ite _ _ _)))

/-- Files that are equal to the comparator are the same. -/
def NoTies (options : UInt32) (files : List FileInfo) : Prop :=
  options &&& DASH_S ≠ 0 → ∀ l ∈ files, ∀ r ∈ files,
    toInt l.statInfo.st_size = toInt r.statInfo.st_size → l = r

/-! ## The comparator -/

/-- The comparator without -r. -/
def forward (options : UInt32) : FileInfo → FileInfo → Int :=
  if options &&& DASH_S ≠ 0 then compareByFileSize
  else if options &&& DASH_t ≠ 0 then compareByTimeModified
  else compareLexographically

theorem apply_chooseComparator (options : UInt32) : (chooseComparator options).apply
    = if options &&& DASH_r ≠ 0 then fun l r => forward options l r * -1 else forward options := by
  unfold chooseComparator forward
  by_cases hS : options &&& DASH_S = 0 <;> by_cases ht : options &&& DASH_t = 0 <;>
    by_cases hr : options &&& DASH_r = 0 <;>
      simp only [hS, ht, hr, ne_eq, not_true_eq_false, not_false_eq_true, if_true, if_false] <;> rfl

theorem comparesBy_forward_size (hS : options &&& DASH_S ≠ 0) : ComparesBy (forward options) fun l =>
    OrderDual.toDual (toInt l.statInfo.st_size) := by
  rw [forward, if_pos hS]
  exact comparesBy_fileSize

theorem comparesBy_forward_time (hS : ¬ options &&& DASH_S ≠ 0) (ht : options &&& DASH_t ≠ 0) :
    ComparesBy (forward options) fun l =>
      toLex (OrderDual.toDual (timeToInt l.statInfo.st_mtime), l.filename) := by
  rw [forward, if_neg hS, if_pos ht]
  exact comparesBy_timeModified

theorem comparesBy_forward_name (hS : ¬ options &&& DASH_S ≠ 0) (ht : ¬ options &&& DASH_t ≠ 0) :
    ComparesBy (forward options) FileInfo.filename := by
  rw [forward, if_neg hS, if_neg ht]
  exact comparesBy_filename

section
variable {κ κ' : Type} [LinearOrder κ] [LinearOrder κ'] {compare : FileInfo → FileInfo → Int}
  {key : FileInfo → κ} {asked : FileInfo → κ'}

/-- Every sort by the comparator is in the order asked for. -/
theorem ComparesBy.sorts_iff (hkey : ComparesBy compare key) :
    (∀ std : StdSort, (std.sort (fun l r => decide (compare l r < 0)) files).Pairwise
      fun l r => asked l ≤ asked r) ↔
      ∀ l ∈ files, ∀ r ∈ files, asked l < asked r → key l < key r := by
  refine sort_pairwise_iff ?_
  intro l _ r _
  rw [decide_eq_true_eq, hkey.less]

/-- The other way round the same is asked of the keys. -/
theorem ComparesBy.reverse_sorts_iff (hkey : ComparesBy compare key) :
    (∀ std : StdSort, (std.sort (fun l r => decide (compare l r * -1 < 0)) files).Pairwise
      fun l r => asked r ≤ asked l) ↔
      ∀ l ∈ files, ∀ r ∈ files, asked l < asked r → key l < key r := by
  have hsorts : (∀ std : StdSort, (std.sort (fun l r => decide (compare l r * -1 < 0)) files).Pairwise
      fun l r => OrderDual.toDual (asked l) ≤ OrderDual.toDual (asked r)) ↔
      ∀ l ∈ files, ∀ r ∈ files, OrderDual.toDual (asked l) < OrderDual.toDual (asked r) →
        OrderDual.toDual (key l) < OrderDual.toDual (key r) := hkey.reverse.sorts_iff
  simp only [OrderDual.toDual_le_toDual, OrderDual.toDual_lt_toDual] at hsorts
  rw [hsorts]
  exact ⟨fun h l hl r hr => h r hr l hl, fun h l hl r hr => h r hr l hl⟩

end

/-- The sorts in either direction. -/
theorem inOrder_iff {κ κ' : Type} [LinearOrder κ] [LinearOrder κ'] {key : FileInfo → κ}
    {asked : FileInfo → κ'} (hkey : ComparesBy (forward options) key)
    (hasked : ∀ l r, Precedes options l r ↔ asked l ≤ asked r) :
    (∀ std : StdSort, InOrder options (sortedFiles std options files)) ↔
      ∀ l ∈ files, ∀ r ∈ files, asked l < asked r → key l < key r := by
  have hprecedes : Precedes options = fun l r => asked l ≤ asked r := by
    funext l r
    exact propext (hasked l r)
  unfold InOrder sortedFiles
  rw [apply_chooseComparator, hprecedes]
  by_cases hr : options &&& DASH_r ≠ 0
  · simp only [if_pos hr]
    exact hkey.reverse_sorts_iff
  · simp only [if_neg hr]
    exact hkey.sorts_iff

theorem inOrder_iff_keysFit (options : UInt32) (files : List FileInfo) :
    (∀ std : StdSort, InOrder options (sortedFiles std options files)) ↔
      KeysFit options files := by
  unfold KeysFit
  by_cases hS : options &&& DASH_S ≠ 0
  · have hasked : ∀ l r, Precedes options l r ↔
        OrderDual.toDual l.statInfo.st_size ≤ OrderDual.toDual r.statInfo.st_size := by
      intro l r
      rw [Precedes, if_pos hS, OrderDual.toDual_le_toDual]
    rw [inOrder_iff (comparesBy_forward_size hS) hasked, if_pos hS]
    simp only [OrderDual.toDual_lt_toDual]
    exact ⟨fun h l hl r hr => h r hr l hl, fun h l hl r hr => h r hr l hl⟩
  · rw [if_neg hS]
    by_cases ht : options &&& DASH_t ≠ 0
    · have hasked : ∀ l r, Precedes options l r ↔
          toLex (OrderDual.toDual l.statInfo.st_mtime, l.filename)
            ≤ toLex (OrderDual.toDual r.statInfo.st_mtime, r.filename) := by
        intro l r
        rw [Precedes, if_neg hS, if_pos ht, Prod.Lex.toLex_le_toLex, OrderDual.toDual_lt_toDual,
          OrderDual.toDual_inj]
      rw [inOrder_iff (comparesBy_forward_time hS ht) hasked, if_pos ht]
      simp only [Prod.Lex.toLex_lt_toLex, OrderDual.toDual_lt_toDual, OrderDual.toDual_inj]
      constructor
      · intro h l hl r hr hlt
        exact (h r hr l hl (.inl hlt)).imp id (And.imp_left Eq.symm)
      · rintro h l hl r hr (hlt | ⟨heq, hname⟩)
        · exact (h r hr l hl hlt).imp id (And.imp_left Eq.symm)
        · exact .inr ⟨by rw [heq], hname⟩
    · have hasked : ∀ l r, Precedes options l r ↔ l.filename ≤ r.filename := by
        intro l r
        rw [Precedes, if_neg hS, if_neg ht]
      rw [inOrder_iff (comparesBy_forward_name hS ht) hasked, if_neg ht]
      exact iff_of_true (fun _ _ _ _ h => h) trivial

/-- **The order asked for** comes out, with every `qsort`, exactly if nothing is lost of the
numbers. -/
theorem sortFileInfo_inOrder_iff {h : Heap FileInfoListNode} {p : Option Ptr}
    {cells : List (Ptr × FileInfo)} (hcells : Linked h p cells) (options : UInt32) :
    (∀ std : StdSort, ∃ sorted,
      Ends (fun fuel => sortFileInfo std fuel h p cells.length options) (.ok sorted) ∧
        sorted.Perm (cells.map Prod.snd) ∧ InOrder options sorted) ↔
      KeysFit options (cells.map Prod.snd) := by
  rw [← inOrder_iff_keysFit]
  refine forall_congr' ?_
  intro std
  constructor
  · rintro ⟨sorted, hends, -, horder⟩
    rwa [Except.ok.inj (hends.unique (sortFileInfo_eq std options hcells))] at horder
  · intro horder
    exact ⟨_, sortFileInfo_eq std options hcells, sortedFiles_perm std options _, horder⟩

/-- A file of a size. -/
def sizedFile (filename : Bytes) (st_size : Nat) (h : filename.length < MAX_FILE_NAME_LEN) : FileInfo :=
  ⟨filename, { (plainFile filename h).statInfo with st_size := st_size }, h⟩

/-- Two nodes, the first file in front. -/
def twoNodes (l r : FileInfo) : Heap FileInfoListNode := ⟨[some ⟨l, some 1⟩, some ⟨r, none⟩]⟩

theorem linked_twoNodes (l r : FileInfo) : Linked (twoNodes l r) (some 0) [(0, l), (1, r)] :=
  ⟨rfl, some 1, rfl, rfl, none, rfl, rfl⟩

theorem sortFileInfo_inOrder_small : ∃ sorted,
    Ends (fun fuel => sortFileInfo insertionSort fuel (twoNodes (sizedFile [97] 1 (by decide))
      (sizedFile [98] (2 ^ 31 - 1) (by decide))) (some 0) 2 DASH_S) (.ok sorted) ∧
      sorted.Perm [sizedFile [97] 1 (by decide), sizedFile [98] (2 ^ 31 - 1) (by decide)] ∧
      InOrder DASH_S sorted :=
  (sortFileInfo_inOrder_iff (linked_twoNodes _ _) DASH_S).mpr (by decide) insertionSort

/-- With -S a file of 4 GiB comes behind one of a single byte. -/
theorem not_inOrder_large : ¬ ∃ sorted,
    Ends (fun fuel => sortFileInfo insertionSort fuel (twoNodes (sizedFile [97] 1 (by decide))
      (sizedFile [98] (2 ^ 32) (by decide))) (some 0) 2 DASH_S) (.ok sorted) ∧
      sorted.Perm [sizedFile [97] 1 (by decide), sizedFile [98] (2 ^ 32) (by decide)] ∧
      InOrder DASH_S sorted := by
  rintro ⟨sorted, hends, -, horder⟩
  have hsorted := Except.ok.inj (hends.unique (sortFileInfo_eq insertionSort DASH_S
    (linked_twoNodes (sizedFile [97] 1 (by decide)) (sizedFile [98] (2 ^ 32) (by decide)))))
  have hlast : sorted = [sizedFile [97] 1 (by decide), sizedFile [98] (2 ^ 32) (by decide)] := hsorted
  rw [hlast] at horder
  exact absurd horder (by decide)

/-! ## The order of `readdir` -/

/-- What `listDirectoryContents` has sorted of the entries. -/
def sortEntries (std : StdSort) (fs : FileSystem) (options : UInt32) (directory : Bytes)
    (heap : Heap FileInfoListNode) (entries : List Bytes) (fuel : Nat) :
    Exec Fault (List FileInfo) := do
  let s ← (readEntries fs options directory heap entries : Exec Fault Reading)
  sortFileInfo std fuel s.list.heap s.list.head s.fileInfoCount options

theorem sortEntries_eq (std : StdSort) (fs : FileSystem) (options : UInt32) (directory : Bytes)
    (heap : Heap FileInfoListNode) (entries : List Bytes) :
    Ends (sortEntries std fs options directory heap entries)
      (.ok (sortedFiles std options (collect fs options directory entries))) := by
  obtain ⟨s, cells, hread, hs, hfiles⟩ := readEntries_collect fs options directory heap entries
  have hsort := sortFileInfo_eq std options hs.collected.linked
  rw [hfiles, ← hs.count] at hsort
  refine hsort.congr ?_
  intro fuel
  rw [sortEntries, hread, lift_eq_done, done_ok_bind]

theorem collect_perm {fs : FileSystem} {directory : Bytes} {entries entries' : List Bytes}
    (h : entries.Perm entries') :
    (collect fs options directory entries).Perm (collect fs options directory entries') :=
  (h.filter _).filterMap _

/-- A file is known by its path. -/
theorem eq_of_filename_eq {fs : FileSystem} {directory : Bytes} {entries : List Bytes}
    {l r : FileInfo} (hl : l ∈ collect fs options directory entries)
    (hr : r ∈ collect fs options directory entries) (h : l.filename = r.filename) : l = r := by
  have hstat := lstat_of_mem_collect hl
  rw [h, lstat_of_mem_collect hr] at hstat
  obtain ⟨lname, lstat, _⟩ := l
  obtain ⟨rname, rstat, _⟩ := r
  obtain rfl : lname = rname := h
  obtain rfl : rstat = lstat := Option.some.inj hstat
  rfl

section
variable {κ : Type} [LinearOrder κ] {key : FileInfo → κ}

/-- The comparator that is chosen has a key with the same ties. -/
theorem exists_key (hkey : ComparesBy (forward options) key) :
    ∃ (κ' : Type) (_ : LinearOrder κ') (key' : FileInfo → κ'),
      (∀ l r, decide ((chooseComparator options).apply l r < 0) = true ↔ key' l < key' r) ∧
      ∀ l r, key' l = key' r ↔ key l = key r := by
  rw [apply_chooseComparator]
  by_cases hr : options &&& DASH_r ≠ 0
  · refine ⟨κᵒᵈ, inferInstance, fun l => OrderDual.toDual (key l), ?_, fun _ _ => OrderDual.toDual_inj⟩
    intro l r
    rw [decide_eq_true_eq, if_pos hr, hkey.reverse.less]
  · refine ⟨κ, inferInstance, key, ?_, fun _ _ => Iff.rfl⟩
    intro l r
    rw [decide_eq_true_eq, if_neg hr, hkey.less]

/-- Files with different keys are sorted in one way only. -/
theorem sort_eq_of_forward {std std' : StdSort} {files' : List FileInfo}
    (hkey : ComparesBy (forward options) key) (hperm : files.Perm files')
    (hties : ∀ l ∈ files, ∀ r ∈ files, key l = key r → l = r) :
    sortedFiles std options files = sortedFiles std' options files' := by
  obtain ⟨κ', _, key', hless, hequal⟩ := exists_key hkey
  refine sort_eq_of_keys (fun l _ r _ => hless l r) hperm ?_
  intro l hl r hr heq
  exact hties l hl r hr ((hequal l r).mp heq)

theorem ties_of_sorts_eq (hkey : ComparesBy (forward options) key)
    (hall : ∀ std std' : StdSort, sortedFiles std options files = sortedFiles std' options files) :
    ∀ l ∈ files, ∀ r ∈ files, key l = key r → l = r := by
  obtain ⟨κ', _, key', hless, hequal⟩ := exists_key hkey
  intro l hl r hr heq
  exact eq_of_sorts_eq (fun l _ r _ => hless l r) hall l hl r hr ((hequal l r).mpr heq)

end

/-- Only files of one size may be equal to the comparator. -/
theorem sort_collect_eq {std std' : StdSort} {fs : FileSystem} {directory : Bytes}
    {entries : List Bytes} {files' : List FileInfo}
    (hties : NoTies options (collect fs options directory entries))
    (hperm : (collect fs options directory entries).Perm files') :
    sortedFiles std options (collect fs options directory entries) = sortedFiles std' options files' := by
  by_cases hS : options &&& DASH_S ≠ 0
  · have hsize := comparesBy_forward_size hS
    exact sort_eq_of_forward hsize hperm fun l hl r hr heq => hties hS l hl r hr heq
  · by_cases ht : options &&& DASH_t ≠ 0
    · refine sort_eq_of_forward (comparesBy_forward_time hS ht) hperm ?_
      intro l hl r hr heq
      exact eq_of_filename_eq hl hr (congrArg (fun key => (ofLex key).2) heq)
    · refine sort_eq_of_forward (comparesBy_forward_name hS ht) hperm ?_
      exact fun l hl r hr => eq_of_filename_eq hl hr

/-- **One listing for all orders of `readdir`** there is exactly if no two files are equal to
the comparator. -/
theorem sortEntries_order_iff (fs : FileSystem) (options : UInt32) (directory : Bytes)
    (entries : List Bytes) :
    (∀ (std std' : StdSort) (heap heap' : Heap FileInfoListNode) (entries' : List Bytes),
      entries.Perm entries' → ∃ sorted,
        Ends (sortEntries std fs options directory heap entries) (.ok sorted) ∧
          Ends (sortEntries std' fs options directory heap' entries') (.ok sorted)) ↔
      NoTies options (collect fs options directory entries) := by
  have hends := fun (std : StdSort) heap entries =>
    sortEntries_eq std fs options directory heap entries
  constructor
  · intro hall hS
    have hsize := comparesBy_forward_size hS
    have hsorts : ∀ std std' : StdSort,
        sortedFiles std options (collect fs options directory entries)
          = sortedFiles std' options (collect fs options directory entries) := by
      intro std std'
      obtain ⟨sorted, hsorted, hsorted'⟩ :=
        hall std std' Heap.empty Heap.empty entries (List.Perm.refl entries)
      rw [← Except.ok.inj (hsorted.unique (hends std _ _)),
        ← Except.ok.inj (hsorted'.unique (hends std' _ _))]
    exact fun l hl r hr heq => ties_of_sorts_eq hsize hsorts l hl r hr heq
  · intro hties std std' heap heap' entries' hperm
    refine ⟨_, hends std heap entries, ?_⟩
    rw [@sort_collect_eq _ std std' _ _ _ _ hties (collect_perm hperm)]
    exact hends std' heap' entries'

/-- Two files of one size. -/
def twins : FileSystem where
  readdir path := if path = ascii "d" then some [ascii ".", ascii "..", ascii "a", ascii "b"] else none
  lstat path :=
    if path = ascii "d/a" ∨ path = ascii "d/b" then some ⟨0o100644, 1, 0, 0, 5, 8, 0⟩ else none

/-- They are listed as `readdir` has them. -/
theorem twins_differ : ¬ ∃ sorted,
    Ends (sortEntries insertionSort twins DASH_S (ascii "d") Heap.empty [ascii "a", ascii "b"])
      (.ok sorted) ∧
    Ends (sortEntries insertionSort twins DASH_S (ascii "d") Heap.empty [ascii "b", ascii "a"])
      (.ok sorted) := by
  rintro ⟨sorted, hends, hends'⟩
  have hsorted := hends.unique (sortEntries_eq insertionSort twins DASH_S _ _ _)
  rw [hends'.unique (sortEntries_eq insertionSort twins DASH_S _ _ _)] at hsorted
  exact absurd (Except.ok.inj hsorted) (by decide)

end Nyctomek.Ls
