/-
# `Ls.Memory` — the list nodes of a call, allocated and freed

`listDirectoryContents` allocates a node for every entry that it lists, and frees its list behind
the calls for the directories in it.  `Heap.Clears` says of a piece of the program that it leaves
the older cells as they are and none of its own behind.

    addFileInfoToList     one cell more, at the end of the list            `live_add`
    freeFileInfoList      exactly the cells of the list are freed          `free_list`
-/
import Nyctomek.Ls.Directories

namespace Nyctomek.Ls

open Prog

section
variable {h h' : Heap FileInfoListNode} {l l' : FileInfoList} {file : FileInfo}
  {cells others : List (Ptr × FileInfo)} {p q : Option Ptr} {a : Ptr}

/-! ## One list -/

/-- The cells that have been allocated since `h` are those of the lists. -/
def OnlyLive (h h' : Heap FileInfoListNode) (cells : List (Ptr × FileInfo)) : Prop :=
  ∀ a, h.fresh ≤ a → h'.read a ≠ none → a ∈ cells.map Prod.fst

theorem addFileInfoToList_cases (hadd : addFileInfoToList file l = .ok l') :
    (l.tail = none ∧ l'.heap = l.heap.alloc ⟨file, none⟩) ∨
      ∃ tail node, l.tail = some tail ∧ (l.heap.alloc ⟨file, none⟩).read tail = some node ∧
        l'.heap = (l.heap.alloc ⟨file, none⟩).write tail { node with next := some l.heap.fresh } := by
  unfold addFileInfoToList at hadd
  cases htail : l.tail with
  | none =>
      simp only [htail] at hadd
      exact .inl ⟨rfl, by rw [← Except.ok.inj hadd]⟩
  | some tail =>
      simp only [htail] at hadd
      obtain ⟨node, hderef, hadd⟩ := bind_eq_ok hadd
      have hread : (l.heap.alloc ⟨file, none⟩).read tail = some node := by
        rw [Heap.deref] at hderef
        split at hderef
        · rename_i hread
          rw [hread, Except.ok.inj hderef]
        · cases hderef
      exact .inr ⟨tail, node, rfl, hread, by rw [← Except.ok.inj hadd]⟩

/-- Cells but the fresh one and the tail are as they were. -/
theorem read_add (hadd : addFileInfoToList file l = .ok l') (hfresh : a ≠ l.heap.fresh)
    (htail : l.tail ≠ some a) : l'.heap.read a = l.heap.read a := by
  rcases addFileInfoToList_cases hadd with ⟨-, hheap⟩ | ⟨tail, node, hsome, -, hheap⟩
  · rw [hheap, Heap.read_alloc_of_ne _ _ hfresh]
  · have hne : a ≠ tail := by
      rintro rfl
      exact htail hsome
    rw [hheap, Heap.read_write_of_ne _ _ hne, Heap.read_alloc_of_ne _ _ hfresh]

/-- No cell comes to life but the fresh one. -/
theorem live_add (hadd : addFileInfoToList file l = .ok l') (hlive : l'.heap.read a ≠ none) :
    a = l.heap.fresh ∨ l.heap.read a ≠ none := by
  by_cases hfresh : a = l.heap.fresh
  · exact .inl hfresh
  · right
    rcases addFileInfoToList_cases hadd with ⟨-, hheap⟩ | ⟨tail, node, hsome, hread, hheap⟩
    · rwa [hheap, Heap.read_alloc_of_ne _ _ hfresh] at hlive
    · by_cases hne : a = tail
      · subst hne
        rw [Heap.read_alloc_of_ne _ _ hfresh] at hread
        rw [hread]
        exact Option.some_ne_none node
      · rwa [hheap, Heap.read_write_of_ne _ _ hne, Heap.read_alloc_of_ne _ _ hfresh] at hlive

/-- A list with other cells is as it was. -/
theorem Collected.beside (hlist : Collected h l cells) (hadd : addFileInfoToList file l = .ok l')
    (hother : Linked l.heap q others) (hdisjoint : ∀ c ∈ cells, ∀ d ∈ others, c.1 ≠ d.1) :
    Linked l'.heap q others := by
  refine hother.congr ?_
  intro d hd
  obtain ⟨next, hread⟩ := hother.read hd
  refine read_add hadd (Nat.ne_of_lt (Heap.read_lt_fresh hread)) ?_
  rw [hlist.tail, ne_eq, Option.map_eq_some_iff]
  rintro ⟨c, hc, hsame⟩
  exact hdisjoint c (List.mem_of_getLast? hc) d hd hsame

/-- What the lists of a piece of the program were is freed, and then nothing is left of it. -/
theorem clears_of_free {h₀ h₁ h₂ : Heap FileInfoListNode} (hkeeps : h₀.Keeps h₁)
    (hnewer : ∀ c ∈ cells, h₀.fresh ≤ c.1) (honly : OnlyLive h₀ h₁ cells)
    (hfresh : h₂.fresh = h₁.fresh) (hfreed : ∀ a ∈ cells.map Prod.fst, h₂.read a = none)
    (hkept : ∀ a, a ∉ cells.map Prod.fst → h₂.read a = h₁.read a) : h₀.Clears h₂ := by
  refine ⟨keeps_of_free hkeeps hnewer hfresh hkept, ?_⟩
  intro a ha
  by_cases hmem : a ∈ cells.map Prod.fst
  · exact hfreed a hmem
  · rw [hkept a hmem]
    by_contra hlive
    exact hmem (honly a ha hlive)

/-- With one cell more. -/
theorem OnlyLive.add {h₀ : Heap FileInfoListNode} {cells' : List (Ptr × FileInfo)}
    (honly : OnlyLive h₀ l.heap cells) (hadd : addFileInfoToList file l = .ok l')
    (hold : ∀ a ∈ cells.map Prod.fst, a ∈ cells'.map Prod.fst)
    (hnew : l.heap.fresh ∈ cells'.map Prod.fst) : OnlyLive h₀ l'.heap cells' := by
  intro a ha hlive
  rcases live_add hadd hlive with rfl | hlive
  · exact hnew
  · exact hold a (honly a ha hlive)

end

/-! ## A directory -/

section
variable {sys : System} {std : StdSort} {fs : FileSystem} {options : UInt32}
  {heap : Heap FileInfoListNode} {path : Bytes} {entries : List Bytes} {files : List FileInfo}

theorem onlyLive_readEntries {s : Reading} {cells : List (Ptr × FileInfo)}
    (hread : readEntries fs options path heap entries = .ok s) (hs : Collected heap s.list cells) :
    OnlyLive heap s.list.heap cells := by
  induction entries using List.reverseRecOn generalizing s cells with
  | nil =>
      obtain rfl := Except.ok.inj hread
      intro a ha hlive
      exact absurd (Heap.read_of_fresh_le ha) hlive
  | append_singleton entries n ih =>
      obtain ⟨s₁, cells₁, hread₁, hs₁, -⟩ := readEntries_collect fs options path heap entries
      have honly := ih hread₁ hs₁.collected
      rw [readEntries_concat hread₁, readEntry] at hread
      cases hskip : isSkipped options n with
      | true =>
          rw [if_pos hskip] at hread
          obtain rfl := Except.ok.inj hread
          rwa [hs.linked.unique hs₁.collected.linked]
      | false =>
          cases hinfo : getFileInfo fs (snprintf (path ++ slash :: n)) with
          | none =>
              simp only [hskip, Bool.false_eq_true, if_false, hinfo] at hread
              obtain rfl := Except.ok.inj hread
              rwa [hs.linked.unique hs₁.collected.linked]
          | some file =>
              simp only [hskip, Bool.false_eq_true, if_false, hinfo] at hread
              obtain ⟨list, hadd, hread⟩ := bind_eq_ok hread
              obtain rfl := Except.ok.inj hread
              obtain ⟨list', hadd', hlist⟩ := hs₁.collected.add file
              obtain rfl := Except.ok.inj (hadd.symm.trans hadd')
              rw [hs.linked.unique hlist.linked]
              refine honly.add hadd (fun a ha => ?_) ?_
              · rw [List.map_append]
                exact List.mem_append_left _ ha
              · rw [List.map_append]
                exact List.mem_append_right _ (List.mem_singleton_self _)

/-- The loop over the sorted entries. -/
theorem subdirectories_clears {recurse : Heap FileInfoListNode → FileInfo →
      Exec Fault (List Listing × Heap FileInfoListNode)}
    (hrecurse : ∀ h file listings h', recurse h file = done (.ok (listings, h')) → h.Clears h')
    {s : List Listing × Heap FileInfoListNode} {listings : List Listing}
    {h' : Heap FileInfoListNode}
    (hdone : files.foldlM (listSubdirectory recurse) s = done (.ok (listings, h'))) :
    s.2.Clears h' := by
  induction files generalizing s with
  | nil =>
      obtain rfl := Except.ok.inj (done_inj hdone)
      exact .refl _
  | cons file files ih =>
      rw [List.foldlM_cons] at hdone
      rcases bind_eq_done hdone with ⟨s₁, hfirst, hrest⟩ | ⟨e, -, he⟩
      · refine Heap.Clears.trans ?_ (ih hrest)
        rw [listSubdirectory] at hfirst
        split at hfirst
        · rcases bind_eq_done hfirst with ⟨⟨deeper, h₁⟩, hcall, hpair⟩ | ⟨e, -, he⟩
          · obtain rfl := Except.ok.inj (done_inj hpair)
            exact hrecurse s.2 file deeper h₁ hcall
          · cases he
        · obtain rfl := Except.ok.inj (done_inj hfirst)
          exact .refl _
      · cases he

theorem listSubdirectories_clears {recurse : Heap FileInfoListNode → FileInfo →
      Exec Fault (List Listing × Heap FileInfoListNode)}
    (hrecurse : ∀ h file listings h', recurse h file = done (.ok (listings, h')) → h.Clears h')
    {s : List Listing × Heap FileInfoListNode} {listings : List Listing}
    {h' : Heap FileInfoListNode}
    (hdone : listSubdirectories options recurse files s = done (.ok (listings, h'))) :
    s.2.Clears h' := by
  rw [listSubdirectories] at hdone
  split at hdone
  · exact subdirectories_clears hrecurse hdone
  · obtain rfl := Except.ok.inj (done_inj hdone)
    exact .refl _

/-- **A call leaves nothing behind** and touches nothing that was there before. -/
theorem listDirectoryContents_clears (fuel : Nat) :
    ∀ (heap : Heap FileInfoListNode) (file : FileInfo) (printHeaderRow : Bool) (listings : List Listing)
    (h' : Heap FileInfoListNode), listDirectoryContents sys std fs options fuel heap file printHeaderRow
      = done (.ok (listings, h')) → heap.Clears h' := by
  induction fuel with
  | zero =>
      intro heap file printHeaderRow listings h' hdone
      exact absurd hdone (noFuel_ne_done _)
  | succ fuel ih =>
      intro heap file printHeaderRow listings h' hdone
      cases hopened : fs.readdir file.filename with
      | none =>
          rw [listDirectoryContents, hopened] at hdone
          cases done_inj hdone
      | some entries =>
          obtain ⟨s, cells, hread, hs, ⟨-, e, he⟩ | ⟨printed, result, -, -, hloop, ⟨e, -, he⟩ |
            ⟨listings₁, h₁, rfl, hdone⟩⟩⟩ := listDirectoryContents_cases hopened hdone
          · cases he
          · cases he
          obtain ⟨h₂, hfree, hdone⟩ := bind_eq_done_ok hdone
          obtain ⟨-, rfl⟩ := Prod.mk.inj (Except.ok.inj (done_inj hdone))
          have hbelow := listSubdirectories_clears (fun h f => ih h f true) hloop
          obtain ⟨h₃, hends, hfresh, hfreed, hkept⟩ :=
            free_list (hs.collected.linked.of_keeps hbelow.toKeeps)
          obtain rfl := Except.ok.inj (((freeFileInfoList_mono s.list.head).ends hfree).unique hends)
          refine clears_of_free (hs.collected.keeps.trans hbelow.toKeeps) hs.collected.newer ?_
            hfresh hfreed hkept
          intro a ha hlive
          rcases Nat.lt_or_ge a s.list.heap.fresh with hlt | hge
          · rw [hbelow.read a hlt] at hlive
            exact onlyLive_readEntries hread hs.collected a ha hlive
          · exact absurd (hbelow.freed a hge) hlive

end

end Nyctomek.Ls
