/-
# `Ls.Sorting` — the entries of a directory, collected and sorted

`addFileInfoToList` adds a node at the tail of a list, and `sortFileInfo` copies the list
into an array and sorts it.  The order depends on three options; the sizes and the times are
cut off to an `int` when they are compared.

    -t           the latest first, and the same time by name
    -S           the largest first, whatever -t says
    otherwise    by name
    -r           the other way round

Each comparator compares by a key (`ComparesBy`), so that `qsort` has a strict weak order to
sort by.
-/
import Mathlib.Data.Prod.Lex
import Nyctomek.Ls
import Nyctomek.Prog.LinkedList
import Nyctomek.Prog.StdSort

namespace Nyctomek.Ls

open Prog

def DASH_r : UInt32 := 0x00000040
def DASH_S : UInt32 := 0x00000080
def DASH_t : UInt32 := 0x00000100

/-- `FileInfoListNode_t`: the item is what `fileInfo` points to. -/
abbrev FileInfoListNode := Node FileInfo

/-- A list with its two pointers. -/
structure FileInfoList where
  heap : Heap FileInfoListNode
  head : Option Ptr
  tail : Option Ptr
  deriving DecidableEq, Repr

def addFileInfoToList (fileInfo : FileInfo) (l : FileInfoList) : Except Fault FileInfoList := do
  let element := l.heap.fresh
  let heap := l.heap.alloc ⟨fileInfo, none⟩
  let head := if l.head = none then some element else l.head
  match l.tail with
  | some tail =>
      let node ← heap.deref (some tail)
      .ok ⟨heap.write tail { node with next := some element }, head, some element⟩
  | none => .ok ⟨heap, head, some element⟩

/-! ## Comparators -/

def strcmp (lhs rhs : Bytes) : Int :=
  if lhs < rhs then -1 else if rhs < lhs then 1 else 0

def valcmp (lhs rhs : Int) : Int :=
  if lhs < rhs then -1 else if lhs > rhs then 1 else 0

/-- Conversion of a `time_t` to `int`. -/
def timeToInt (n : Int) : Int := n.bmod (2 ^ 32)

def compareLexographically (l r : FileInfo) : Int := strcmp l.filename r.filename

def compareReverseLexographically (l r : FileInfo) : Int := compareLexographically l r * -1

def compareByFileSize (l r : FileInfo) : Int :=
  let result := valcmp (toInt l.statInfo.st_size) (toInt r.statInfo.st_size)
  -- Largest files first.
  result * -1

def compareByReverseFileSize (l r : FileInfo) : Int := compareByFileSize l r * -1

def compareByTimeModified (l r : FileInfo) : Int :=
  let result := valcmp (timeToInt l.statInfo.st_mtime) (timeToInt r.statInfo.st_mtime)
  -- Most recently modified files (greatest timestamp) first.
  let result := result * -1
  if 0 = result then compareLexographically l r else result

def compareByReverseTimeModified (l r : FileInfo) : Int := compareByTimeModified l r * -1

/-- Pointers to the comparators. -/
inductive Comparator where
  | lexographically | reverseLexographically
  | byFileSize | byReverseFileSize
  | byTimeModified | byReverseTimeModified
  deriving DecidableEq, Repr

def Comparator.apply : Comparator → FileInfo → FileInfo → Int
  | lexographically => compareLexographically
  | reverseLexographically => compareReverseLexographically
  | byFileSize => compareByFileSize
  | byReverseFileSize => compareByReverseFileSize
  | byTimeModified => compareByTimeModified
  | byReverseTimeModified => compareByReverseTimeModified

/-! ## `sortFileInfo` -/

/-- The comparator that the options choose. -/
def chooseComparator (options : UInt32) : Comparator :=
  let compare := Comparator.lexographically
  let compare := if options &&& DASH_t ≠ 0 then .byTimeModified else compare
  let compare := if options &&& DASH_S ≠ 0 then .byFileSize else compare
  if options &&& DASH_r ≠ 0 then
    let compare := if compare = .byFileSize then .byReverseFileSize else compare
    let compare := if compare = .byTimeModified then .byReverseTimeModified else compare
    if compare = .lexographically then .reverseLexographically else compare
  else compare

/-- One turn of the loop over the list: `fileInfoNode` and the array so far. -/
def copyTurn (heap : Heap FileInfoListNode) (fileInfoCount : Nat)
    (s : Option Ptr × List FileInfo) :
    Except Fault (Turn (Option Ptr × List FileInfo) (List FileInfo)) := do
  match s.1 with
  | none => .ok (.stop s.2)
  | some _ =>
      let node ← heap.deref s.1
      if s.2.length < fileInfoCount then .ok (.again (node.next, s.2 ++ [node.item]))
      else .error (.indexOutOfRange s.2.length)

/-- `sortFileInfo`; `qsort` is what `std` says.  Places of the array that the loop has not
come to are null. -/
def sortFileInfo (std : StdSort) (fuel : Nat) (heap : Heap FileInfoListNode)
    (fileInfoNode : Option Ptr) (fileInfoCount : Nat) (options : UInt32) :
    Exec Fault (List FileInfo) := do
  let fileInfo ← loop (copyTurn heap fileInfoCount) fuel (fileInfoNode, [])
  if fileInfo.length < fileInfoCount then done (.error .nullPointer)
  else
    let compare := (chooseComparator options).apply
    return std.sort (fun l r => decide (compare l r < 0)) fileInfo

/-- One turn of the loop in `freeFileInfoList`. -/
def freeTurn (s : Heap FileInfoListNode × Option Ptr) :
    Except Fault (Turn (Heap FileInfoListNode × Option Ptr) (Heap FileInfoListNode)) := do
  match s.2 with
  | none => .ok (.stop s.1)
  | some list =>
      let node ← s.1.deref (some list)
      .ok (.again (s.1.free list, node.next))

def freeFileInfoList (fuel : Nat) (heap : Heap FileInfoListNode) (list : Option Ptr) :
    Exec Fault (Heap FileInfoListNode) :=
  loop freeTurn fuel (heap, list)

/-! ## The list -/

/-- The list has the cells; they are newer than the heap `h`, whose cells are kept. -/
structure Collected (h : Heap FileInfoListNode) (l : FileInfoList) (cells : List (Ptr × FileInfo)) :
    Prop where
  linked : Linked l.heap l.head cells
  tail : l.tail = cells.getLast?.map Prod.fst
  newer : ∀ c ∈ cells, h.fresh ≤ c.1
  keeps : h.Keeps l.heap

section
variable {h : Heap FileInfoListNode} {l : FileInfoList} {cells : List (Ptr × FileInfo)}

theorem collected_nil (h : Heap FileInfoListNode) : Collected h ⟨h, none, none⟩ [] where
  linked := rfl
  tail := rfl
  newer _ hc := nomatch hc
  keeps := .refl h

/-- A file is added behind the others. -/
theorem Collected.add (hl : Collected h l cells) (fileInfo : FileInfo) :
    ∃ l', addFileInfoToList fileInfo l = .ok l' ∧
      Collected h l' (cells ++ [(l.heap.fresh, fileInfo)]) := by
  have hnewer : ∀ c ∈ cells ++ [(l.heap.fresh, fileInfo)], h.fresh ≤ c.1 := by
    intro c hc
    rcases List.mem_append.mp hc with hold | hlast
    · exact hl.newer c hold
    · rw [List.mem_singleton.mp hlast]
      exact hl.keeps.fresh
  rcases List.eq_nil_or_concat cells with rfl | ⟨front, c, rfl⟩
  · have hhead : l.head = none := hl.linked
    have htail : l.tail = none := hl.tail
    refine ⟨⟨l.heap.alloc ⟨fileInfo, none⟩, some l.heap.fresh, some l.heap.fresh⟩, ?_, ?_⟩
    · simp only [addFileInfoToList, hhead, htail, if_pos]
    · exact ⟨linked_singleton l.heap fileInfo, rfl, hnewer, hl.keeps.alloc _⟩
  · rw [List.concat_eq_append] at hl hnewer ⊢
    have htail : l.tail = some c.1 := by rw [hl.tail, List.getLast?_concat, Option.map_some]
    have hhead : l.head ≠ none := by
      rw [hl.linked.head_eq]
      cases front <;> simp
    have hread := Heap.read_alloc_of_read ⟨fileInfo, none⟩ hl.linked.read_last
    refine ⟨⟨(l.heap.alloc ⟨fileInfo, none⟩).write c.1 ⟨c.2, some l.heap.fresh⟩, l.head,
      some l.heap.fresh⟩, ?_, ?_⟩
    · simp only [addFileInfoToList, htail, if_neg hhead, Heap.deref_some hread, ok_bind]
    · refine ⟨hl.linked.append fileInfo, ?_, hnewer, ?_⟩
      · rw [List.getLast?_concat, Option.map_some]
      · exact (hl.keeps.alloc _).write (hl.newer c (by simp)) _

/-- The loop copies the list, if it is not longer than the array. -/
theorem copy_ends {h : Heap FileInfoListNode} {p : Option Ptr} {cells : List (Ptr × FileInfo)}
    (hcells : Linked h p cells) (front : List FileInfo) {count : Nat}
    (hcount : front.length + cells.length ≤ count) :
    Ends (fun fuel => loop (copyTurn h count) fuel (p, front))
      (.ok (front ++ cells.map Prod.snd)) := by
  induction cells generalizing p front with
  | nil =>
      rw [show p = none from hcells, List.map_nil, List.append_nil]
      exact Ends.loop_stop rfl
  | cons c cells ih =>
      obtain ⟨rfl, next, hread, hrest⟩ := hcells
      rw [List.length_cons] at hcount
      have hturn : copyTurn h count (some c.1, front) = .ok (.again (next, front ++ [c.2])) := by
        simp only [copyTurn, Heap.deref_some hread, ok_bind]
        rw [if_pos (by omega)]
      have hbehind := ih hrest (front ++ [c.2]) (by
        rw [List.length_append, List.length_singleton]
        omega)
      rw [List.append_assoc] at hbehind
      exact Ends.of_turns (Turns.single hturn) hbehind

/-- **The cells of the list are freed**, and no others. -/
theorem free_list {p : Option Ptr} (hcells : Linked h p cells) :
    ∃ h', Ends (fun fuel => freeFileInfoList fuel h p) (.ok h') ∧ h'.fresh = h.fresh ∧
      (∀ a ∈ cells.map Prod.fst, h'.read a = none) ∧
      ∀ a, a ∉ cells.map Prod.fst → h'.read a = h.read a := by
  induction cells generalizing h p with
  | nil =>
      rw [show p = none from hcells]
      exact ⟨h, Ends.loop_stop rfl, rfl, fun _ ha => (nomatch ha), fun _ _ => rfl⟩
  | cons c cells ih =>
      have hnodup := hcells.nodup
      obtain ⟨rfl, next, hread, hrest⟩ := hcells
      rw [List.map_cons, List.nodup_cons] at hnodup
      have hturn : freeTurn (h, some c.1) = .ok (.again (h.free c.1, next)) := by
        simp only [freeTurn, Heap.deref_some hread, ok_bind]
      have hrest' : Linked (h.free c.1) next cells := by
        refine hrest.congr ?_
        intro c' hc'
        refine Heap.read_free_of_ne h ?_
        intro heq
        exact hnodup.1 (heq ▸ List.mem_map_of_mem hc')
      obtain ⟨h', hends, hfresh, hfreed, hkept⟩ := ih hrest'
      refine ⟨h', Ends.of_turns (Turns.single hturn) hends,
        hfresh.trans (Heap.fresh_free h c.1), ?_, ?_⟩
      · rw [List.map_cons]
        refine List.forall_mem_cons.mpr ⟨?_, hfreed⟩
        rw [hkept c.1 hnodup.1, Heap.read_free_self]
      · intro a ha
        rw [List.map_cons, List.mem_cons, not_or] at ha
        rw [hkept a ha.2, Heap.read_free_of_ne h ha.1]

/-- What is freed is newer, so that older cells are kept. -/
theorem keeps_of_free {h₀ h' : Heap FileInfoListNode} (hkeeps : h₀.Keeps h)
    (hnewer : ∀ c ∈ cells, h₀.fresh ≤ c.1) (hfresh : h'.fresh = h.fresh)
    (hkept : ∀ a, a ∉ cells.map Prod.fst → h'.read a = h.read a) : h₀.Keeps h' := by
  refine ⟨hfresh ▸ hkeeps.fresh, ?_⟩
  intro a ha
  rw [hkept a, hkeeps.read a ha]
  intro hmem
  obtain ⟨c, hc, rfl⟩ := List.mem_map.mp hmem
  exact Nat.not_lt_of_le (hnewer c hc) ha

/-! ## The order -/

/-- The comparator compares by a key. -/
structure ComparesBy {κ : Type} [LinearOrder κ] (compare : FileInfo → FileInfo → Int)
    (key : FileInfo → κ) : Prop where
  less : ∀ l r, compare l r < 0 ↔ key l < key r
  greater : ∀ l r, 0 < compare l r ↔ key r < key l

section
variable {κ : Type} [LinearOrder κ] {compare : FileInfo → FileInfo → Int} {key : FileInfo → κ}

theorem ComparesBy.strictWeakOn (hkey : ComparesBy compare key) (fileInfo : List FileInfo) :
    StrictWeakOn (fun l r => decide (compare l r < 0)) fileInfo := by
  refine strictWeakOn_of_key key ?_
  intro l _ r _
  rw [decide_eq_true_eq, hkey.less]

theorem ComparesBy.zero_iff (hkey : ComparesBy compare key) (l r : FileInfo) :
    0 = compare l r ↔ key l = key r := by
  have hless := hkey.less l r
  have hgreater := hkey.greater l r
  rcases lt_trichotomy (key l) (key r) with hlt | heq | hgt
  · refine iff_of_false ?_ hlt.ne
    have hneg := hless.mpr hlt
    omega
  · refine iff_of_true ?_ heq
    rw [heq] at hless hgreater
    have hneg : ¬ compare l r < 0 := fun h => lt_irrefl _ (hless.mp h)
    have hpos : ¬ 0 < compare l r := fun h => lt_irrefl _ (hgreater.mp h)
    omega
  · refine iff_of_false ?_ hgt.ne'
    have hpos := hgreater.mpr hgt
    omega

/-- Times -1 it compares by the order turned round. -/
theorem ComparesBy.reverse (hkey : ComparesBy compare key) :
    ComparesBy (fun l r => compare l r * -1) fun l => OrderDual.toDual (key l) where
  less l r := by
    rw [OrderDual.toDual_lt_toDual, ← hkey.greater]
    omega
  greater l r := by
    rw [OrderDual.toDual_lt_toDual, ← hkey.less]
    omega

/-- Equal keys are told apart by a second comparator. -/
theorem ComparesBy.andThen {κ' : Type} [LinearOrder κ'] {compare' : FileInfo → FileInfo → Int}
    {key' : FileInfo → κ'} (hkey : ComparesBy compare key) (hkey' : ComparesBy compare' key') :
    ComparesBy (fun l r => if 0 = compare l r then compare' l r else compare l r)
      fun l => toLex (key l, key' l) where
  less l r := by
    rw [Prod.Lex.toLex_lt_toLex]
    split
    · next hzero =>
      have heq := (hkey.zero_iff l r).mp hzero
      simp only [heq, lt_irrefl, false_or, true_and, hkey'.less]
    · next hne =>
      rw [hkey.zero_iff] at hne
      simp only [hne, false_and, or_false, hkey.less]
  greater l r := by
    rw [Prod.Lex.toLex_lt_toLex]
    split
    · next hzero =>
      have heq := (hkey.zero_iff l r).mp hzero
      simp only [heq, lt_irrefl, false_or, true_and, hkey'.greater]
    · next hne =>
      rw [hkey.zero_iff] at hne
      simp only [Ne.symm hne, false_and, or_false, hkey.greater]

end

theorem threeWay_less {κ : Type} [LinearOrder κ] (a b : κ) [Decidable (a < b)]
    [Decidable (b < a)] :
    (if a < b then (-1 : Int) else if b < a then 1 else 0) < 0 ↔ a < b := by
  split
  · next hlt => exact iff_of_true (by decide) hlt
  · next hge =>
    refine iff_of_false ?_ hge
    split <;> decide

theorem threeWay_greater {κ : Type} [LinearOrder κ] (a b : κ) [Decidable (a < b)]
    [Decidable (b < a)] :
    0 < (if a < b then (-1 : Int) else if b < a then 1 else 0) ↔ b < a := by
  split
  · next hlt => exact iff_of_false (by decide) hlt.not_gt
  · split
    · next hgt => exact iff_of_true (by decide) hgt
    · next hge => exact iff_of_false (by decide) hge

theorem comparesBy_filename : ComparesBy compareLexographically FileInfo.filename :=
  ⟨fun _ _ => threeWay_less _ _, fun _ _ => threeWay_greater _ _⟩

theorem comparesBy_valcmp (value : FileInfo → Int) :
    ComparesBy (fun l r => valcmp (value l) (value r)) value :=
  ⟨fun _ _ => threeWay_less _ _, fun _ _ => threeWay_greater _ _⟩

theorem comparesBy_fileSize : ComparesBy compareByFileSize fun l =>
    OrderDual.toDual (toInt l.statInfo.st_size) :=
  (comparesBy_valcmp fun l => toInt l.statInfo.st_size).reverse

theorem comparesBy_timeModified : ComparesBy compareByTimeModified fun l =>
    toLex (OrderDual.toDual (timeToInt l.statInfo.st_mtime), l.filename) :=
  (comparesBy_valcmp fun l => timeToInt l.statInfo.st_mtime).reverse.andThen comparesBy_filename

/-- **Every comparator is one to sort by.** -/
theorem Comparator.strictWeakOn (c : Comparator) (fileInfo : List FileInfo) :
    StrictWeakOn (fun l r => decide (c.apply l r < 0)) fileInfo := by
  cases c with
  | lexographically => exact comparesBy_filename.strictWeakOn fileInfo
  | reverseLexographically => exact comparesBy_filename.reverse.strictWeakOn fileInfo
  | byFileSize => exact comparesBy_fileSize.strictWeakOn fileInfo
  | byReverseFileSize => exact comparesBy_fileSize.reverse.strictWeakOn fileInfo
  | byTimeModified => exact comparesBy_timeModified.strictWeakOn fileInfo
  | byReverseTimeModified => exact comparesBy_timeModified.reverse.strictWeakOn fileInfo

/-- What `qsort` makes of the array. -/
def sortedFiles (std : StdSort) (options : UInt32) (files : List FileInfo) : List FileInfo :=
  std.sort (fun l r => decide ((chooseComparator options).apply l r < 0)) files

theorem sortedFiles_perm (std : StdSort) (options : UInt32) (files : List FileInfo) :
    (sortedFiles std options files).Perm files :=
  std.perm ((chooseComparator options).strictWeakOn files)

theorem sortFileInfo_eq (std : StdSort) (options : UInt32) {h : Heap FileInfoListNode}
    {p : Option Ptr} {cells : List (Ptr × FileInfo)} (hcells : Linked h p cells) :
    Ends (fun fuel => sortFileInfo std fuel h p cells.length options)
      (.ok (sortedFiles std options (cells.map Prod.snd))) := by
  have hcount : ([] : List FileInfo).length + cells.length ≤ cells.length := by simp
  have hcopy := copy_ends hcells [] hcount
  rw [List.nil_append] at hcopy
  refine hcopy.bind ?_
  rw [if_neg (by simp)]
  exact Ends.const _

/-- **The array has the files of the list**, in some order. -/
theorem sortFileInfo_ends (std : StdSort) (options : UInt32) {h : Heap FileInfoListNode}
    {p : Option Ptr} {cells : List (Ptr × FileInfo)} (hcells : Linked h p cells) :
    ∃ sorted, Ends (fun fuel => sortFileInfo std fuel h p cells.length options) (.ok sorted) ∧
      sorted.Perm (cells.map Prod.snd) :=
  ⟨_, sortFileInfo_eq std options hcells, sortedFiles_perm std options _⟩

end

end Nyctomek.Ls
