/-
# `Prog.StdSort` — `std::sort`

What `std::sort`, like `qsort`, promises for a comparator that is a strict weak order on
the elements: a permutation of them that is sorted by it.  Comparators that compare by a
key are such orders (`strictWeakOn_of_key`).  In which order equal elements come is left
open; merge sort and insertion sort are two implementations, and each of the equal elements
comes first in some implementation (`exists_sort_first`).
-/
import Mathlib.Data.List.Rotate
import Mathlib.Data.List.Sort

namespace Prog

variable {α : Type}

/-- `less` is a strict weak order on the elements of `l`. -/
structure StrictWeakOn (less : α → α → Bool) (l : List α) : Prop where
  irrefl : ∀ a ∈ l, less a a = false
  trans : ∀ a ∈ l, ∀ b ∈ l, ∀ c ∈ l, less a b = true → less b c = true → less a c = true
  incomparable : ∀ a ∈ l, ∀ b ∈ l, ∀ c ∈ l, less a c = true → less a b = true ∨ less b c = true

/-- No element is less than one before it. -/
def SortedBy (less : α → α → Bool) (l : List α) : Prop := l.Pairwise fun a b => less b a = false

/-- An implementation of `std::sort`. -/
structure StdSort where
  sort : ∀ {α : Type}, (α → α → Bool) → List α → List α
  perm : ∀ {α : Type} {less : α → α → Bool} {l : List α}, StrictWeakOn less l → (sort less l).Perm l
  sorted : ∀ {α : Type} {less : α → α → Bool} {l : List α}, StrictWeakOn less l →
    SortedBy less (sort less l)

/-- Comparing by a key is a strict weak order. -/
theorem strictWeakOn_of_key {κ : Type} [LinearOrder κ] {less : α → α → Bool} {l : List α} (key : α → κ)
    (h : ∀ a ∈ l, ∀ b ∈ l, less a b = true ↔ key a < key b) : StrictWeakOn less l where
  irrefl := by
    intro a ha
    rw [← Bool.not_eq_true, h a ha a ha]
    exact lt_irrefl _
  trans := by
    intro a ha b hb c hc hab hbc
    rw [h a ha c hc]
    exact ((h a ha b hb).mp hab).trans ((h b hb c hc).mp hbc)
  incomparable := by
    intro a ha b hb c hc hac
    rw [h a ha b hb, h b hb c hc]
    rcases lt_or_ge (key a) (key b) with hab | hba
    · exact .inl hab
    · exact .inr (hba.trans_lt ((h a ha c hc).mp hac))

/-- Merge sort does what `std::sort` promises. -/
def mergeSort : StdSort where
  sort less l := (l.attach.mergeSort fun a b => !less b.1 a.1).map Subtype.val
  perm := by
    intro α less l _
    have hperm := (List.mergeSort_perm l.attach fun a b => !less b.1 a.1).map Subtype.val
    rwa [List.attach_map_subtype_val] at hperm
  sorted := by
    intro α less l h
    have htrans : ∀ a b c : {x // x ∈ l}, (!less b.1 a.1) = true → (!less c.1 b.1) = true →
        (!less c.1 a.1) = true := by
      intro a b c hab hbc
      rw [Bool.not_eq_true'] at hab hbc ⊢
      rw [← Bool.not_eq_true]
      intro hca
      rcases h.incomparable c.1 c.2 b.1 b.2 a.1 a.2 hca with hcb | hba
      · rw [hcb] at hbc
        cases hbc
      · rw [hba] at hab
        cases hab
    have htotal : ∀ a b : {x // x ∈ l}, ((!less b.1 a.1) || !less a.1 b.1) = true := by
      intro a b
      rw [← Bool.not_and, Bool.not_eq_true', ← Bool.not_eq_true, Bool.and_eq_true]
      rintro ⟨hba, hab⟩
      have hself := h.trans a.1 a.2 b.1 b.2 a.1 a.2 hab hba
      rw [h.irrefl a.1 a.2] at hself
      cases hself
    rw [SortedBy, List.pairwise_map]
    refine (List.pairwise_mergeSort htrans htotal l.attach).imp ?_
    intro a b hab
    rwa [Bool.not_eq_true'] at hab

/-! ## Insertion sort -/

/-- Insertion before the first element that is not less. -/
def insertSorted (less : α → α → Bool) (a : α) : List α → List α
  | [] => [a]
  | b :: l => if less b a then b :: insertSorted less a l else a :: b :: l

/-- Only what is less comes before an element that is inserted. -/
theorem insertSorted_eq (less : α → α → Bool) (a : α) (l : List α) :
    ∃ front back, insertSorted less a l = front ++ a :: back ∧ l = front ++ back ∧
      ∀ b ∈ front, less b a = true := by
  induction l with
  | nil => exact ⟨[], [], rfl, rfl, fun _ h => nomatch h⟩
  | cons b l ih =>
      obtain ⟨front, back, hinsert, hl, hfront⟩ := ih
      rw [insertSorted]
      cases hba : less b a with
      | true =>
          refine ⟨b :: front, back, ?_, ?_, List.forall_mem_cons.mpr ⟨hba, hfront⟩⟩
          · rw [if_pos rfl, hinsert, List.cons_append]
          · rw [hl, List.cons_append]
      | false => exact ⟨[], b :: l, rfl, rfl, fun _ h => nomatch h⟩

theorem insertSorted_perm (less : α → α → Bool) (a : α) (l : List α) :
    (insertSorted less a l).Perm (a :: l) := by
  obtain ⟨front, back, hinsert, hl, -⟩ := insertSorted_eq less a l
  rw [hinsert, hl]
  exact List.perm_middle

theorem StrictWeakOn.mono {less : α → α → Bool} {l l' : List α} (h : StrictWeakOn less l)
    (hl : l' ⊆ l) : StrictWeakOn less l' where
  irrefl a ha := h.irrefl a (hl ha)
  trans a ha b hb c hc := h.trans a (hl ha) b (hl hb) c (hl hc)
  incomparable a ha b hb c hc := h.incomparable a (hl ha) b (hl hb) c (hl hc)

theorem insertSorted_sorted {less : α → α → Bool} {a : α} {l : List α}
    (h : StrictWeakOn less (a :: l)) (hl : SortedBy less l) : SortedBy less (insertSorted less a l) := by
  induction l with
  | nil => exact List.pairwise_singleton _ _
  | cons b l ih =>
      obtain ⟨hb, hrest⟩ := List.pairwise_cons.mp hl
      have ha : a ∈ a :: b :: l := List.mem_cons_self
      have hb' : b ∈ a :: b :: l := List.mem_cons_of_mem _ List.mem_cons_self
      rw [insertSorted]
      cases hba : less b a with
      | true =>
          rw [if_pos rfl]
          refine List.pairwise_cons.mpr ⟨?_, ih (h.mono ?_) hrest⟩
          · intro c hc
            rcases List.mem_cons.mp ((insertSorted_perm less a l).mem_iff.mp hc) with rfl | hmem
            · rw [← Bool.not_eq_true]
              intro hcb
              have hself := h.trans b hb' c ha b hb' hba hcb
              rw [h.irrefl b hb'] at hself
              cases hself
            · exact hb c hmem
          · exact List.cons_subset_cons a (List.subset_cons_self b l)
      | false =>
          rw [if_neg Bool.false_ne_true]
          refine List.pairwise_cons.mpr ⟨?_, hl⟩
          intro c hc
          rcases List.mem_cons.mp hc with rfl | hmem
          · exact hba
          · rw [← Bool.not_eq_true]
            intro hca
            have hc' : c ∈ a :: b :: l := List.mem_cons_of_mem _ hc
            rcases h.incomparable c hc' b hb' a ha hca with hcb | hlt
            · rw [hb c hmem] at hcb
              cases hcb
            · rw [hba] at hlt
              cases hlt

theorem foldr_insertSorted_perm (less : α → α → Bool) (l : List α) :
    (l.foldr (insertSorted less) []).Perm l := by
  induction l with
  | nil => exact List.Perm.refl _
  | cons a l ih => exact (insertSorted_perm less a _).trans (ih.cons a)

/-- Insertion sort does what `std::sort` promises. -/
def insertionSort : StdSort where
  sort less l := l.foldr (insertSorted less) []
  perm := by
    intro α less l _
    exact foldr_insertSorted_perm less l
  sorted := by
    intro α less l h
    induction l with
    | nil => exact List.Pairwise.nil
    | cons a l ih =>
        have htail : StrictWeakOn less l := h.mono (List.subset_cons_self a l)
        refine insertSorted_sorted (h.mono ?_) (ih htail)
        exact List.cons_subset_cons a (foldr_insertSorted_perm less l).subset

/-! ## Which of the equal elements comes first -/

/-- Insertion sort of the list turned by `k` elements. -/
def turnedSort (k : Nat) : StdSort where
  sort less l := insertionSort.sort less (l.rotate k)
  perm := by
    intro α less l _
    exact (foldr_insertSorted_perm less (l.rotate k)).trans (List.rotate_perm l k)
  sorted := by
    intro α less l h
    exact insertionSort.sorted (h.mono (List.rotate_perm l k).subset)

/-- Some implementation puts only what is less before an element. -/
theorem exists_sort_first (less : α → α → Bool) {l : List α} {a : α} (ha : a ∈ l) :
    ∃ (std : StdSort) (front back : List α), std.sort less l = front ++ a :: back ∧
      ∀ b ∈ front, less b a = true := by
  obtain ⟨before, after, rfl⟩ := List.append_of_mem ha
  obtain ⟨front, back, hinsert, -, hfront⟩ :=
    insertSorted_eq less a ((after ++ before).foldr (insertSorted less) [])
  refine ⟨turnedSort before.length, front, back, ?_, hfront⟩
  rw [← hinsert]
  show insertionSort.sort less ((before ++ a :: after).rotate before.length) = _
  rw [List.rotate_append_length_eq]
  rfl

/-- **The sorted list is unique** if no two elements are equal to the comparator. -/
theorem sort_eq_of_perm {std std' : StdSort} {less : α → α → Bool} {l l' : List α} (h : l.Perm l')
    (hweak : StrictWeakOn less l)
    (hties : ∀ a ∈ l, ∀ b ∈ l, less a b = false → less b a = false → a = b) :
    std.sort less l = std'.sort less l' := by
  have hweak' : StrictWeakOn less l' := hweak.mono h.symm.subset
  have hperm : (std.sort less l).Perm (std'.sort less l') :=
    (std.perm hweak).trans (h.trans (std'.perm hweak').symm)
  refine hperm.eq_of_pairwise ?_ (std.sorted hweak) (std'.sorted hweak')
  intro a b ha hb hba hab
  exact hties a ((std.perm hweak).subset ha) b (h.symm.subset ((std'.perm hweak').subset hb)) hab hba

/-! ## Sorting by a key -/

section
variable {κ : Type} [LinearOrder κ] {less : α → α → Bool} {l : List α} {key : α → κ}

/-- **Another order that is asked for** comes of every sort by the key exactly if the key has
what it keeps apart in that order. -/
theorem sort_pairwise_iff {κ' : Type} [LinearOrder κ'] {asked : α → κ'}
    (h : ∀ a ∈ l, ∀ b ∈ l, less a b = true ↔ key a < key b) :
    (∀ std : StdSort, (std.sort less l).Pairwise fun a b => asked a ≤ asked b) ↔
      ∀ a ∈ l, ∀ b ∈ l, asked a < asked b → key a < key b := by
  have hweak := strictWeakOn_of_key key h
  constructor
  · intro hall a ha b hb hab
    obtain ⟨std, front, back, hsort, hfront⟩ := exists_sort_first less hb
    have hsorted := hall std
    rw [hsort] at hsorted
    have hmem : a ∈ front ++ b :: back := by
      rw [← hsort]
      exact (std.perm hweak).mem_iff.mpr ha
    rcases List.mem_append.mp hmem with hbefore | hbehind
    · exact (h a ha b hb).mp (hfront a hbefore)
    · rcases List.mem_cons.mp hbehind with rfl | hbehind
      · exact absurd hab (lt_irrefl _)
      · have hle := (List.pairwise_cons.mp (List.pairwise_append.mp hsorted).2.1).1 a hbehind
        exact absurd hab hle.not_gt
  · intro hkeys std
    refine (std.sorted hweak).imp_of_mem ?_
    intro a b ha hb hnot
    by_contra hgt
    have hlt := hkeys b ((std.perm hweak).subset hb) a ((std.perm hweak).subset ha) (not_le.mp hgt)
    rw [(h b ((std.perm hweak).subset hb) a ((std.perm hweak).subset ha)).mpr hlt] at hnot
    cases hnot

/-- If all sorts are the same no two elements have one key. -/
theorem eq_of_sorts_eq (h : ∀ a ∈ l, ∀ b ∈ l, less a b = true ↔ key a < key b)
    (hall : ∀ std std' : StdSort, std.sort less l = std'.sort less l) :
    ∀ a ∈ l, ∀ b ∈ l, key a = key b → a = b := by
  intro a ha b hb heq
  obtain ⟨std, front, back, hsort, hfront⟩ := exists_sort_first less ha
  obtain ⟨std', front', back', hsort', hfront'⟩ := exists_sort_first less hb
  -- each of the two is the first element that is not less than they are
  have hfind : ∀ {c : α} {front back : List α}, c ∈ l → key c = key a →
      (∀ d ∈ front, less d c = true) → front ⊆ l →
      (front ++ c :: back).find? (fun d => decide (¬ key d < key a)) = some c := by
    intro c front back hc hkey hfront hsub
    have hnone : front.find? (fun d => decide (¬ key d < key a)) = none := by
      rw [List.find?_eq_none]
      intro d hd
      rw [decide_eq_true_eq, not_not, ← hkey]
      exact (h d (hsub hd) c hc).mp (hfront d hd)
    rw [List.find?_append, hnone, Option.none_or, List.find?_cons_of_pos]
    simp [hkey]
  have hsub : ∀ {std : StdSort} {front back : List α}, std.sort less l = front ++ back →
      front ⊆ l := by
    intro std front back hsort d hd
    refine (std.perm (strictWeakOn_of_key key h)).subset ?_
    rw [hsort]
    exact List.mem_append_left _ hd
  have hfirst := @hfind a front back ha rfl hfront (hsub hsort)
  have hfirst' := @hfind b front' back' hb heq.symm hfront' (hsub hsort')
  rw [← hsort, hall std std', hsort', hfirst'] at hfirst
  exact (Option.some.inj hfirst).symm

/-- **All sorts of all orders of the list are the same** if no two elements have one key. -/
theorem sort_eq_of_keys {std std' : StdSort} {l' : List α}
    (h : ∀ a ∈ l, ∀ b ∈ l, less a b = true ↔ key a < key b) (hperm : l.Perm l')
    (hkeys : ∀ a ∈ l, ∀ b ∈ l, key a = key b → a = b) : std.sort less l = std'.sort less l' := by
  refine sort_eq_of_perm hperm (strictWeakOn_of_key key h) ?_
  intro a ha b hb hab hba
  refine hkeys a ha b hb ?_
  rw [← Bool.not_eq_true, h a ha b hb] at hab
  rw [← Bool.not_eq_true, h b hb a ha] at hba
  exact le_antisymm (not_lt.mp hba) (not_lt.mp hab)

/-- **Selecting and sorting commute** in all implementations exactly if no two of the selected
elements have one key. -/
theorem filter_sort_iff {p : α → Bool} (h : ∀ a ∈ l, ∀ b ∈ l, less a b = true ↔ key a < key b) :
    (∀ std std' : StdSort, (std.sort less l).filter p = std'.sort less (l.filter p)) ↔
      ∀ a ∈ l.filter p, ∀ b ∈ l.filter p, key a = key b → a = b := by
  have hsub : l.filter p ⊆ l := List.filter_sublist.subset
  have hfilter : ∀ a ∈ l.filter p, ∀ b ∈ l.filter p, less a b = true ↔ key a < key b :=
    fun a ha b hb => h a (hsub ha) b (hsub hb)
  have hweak := strictWeakOn_of_key key h
  have hweak' := strictWeakOn_of_key key hfilter
  constructor
  · intro hall
    refine eq_of_sorts_eq hfilter ?_
    intro std std'
    rw [← hall mergeSort std, hall mergeSort std']
  · intro hkeys std std'
    have hperm : ((std.sort less l).filter p).Perm (std'.sort less (l.filter p)) :=
      ((std.perm hweak).filter p).trans (std'.perm hweak').symm
    refine hperm.eq_of_pairwise ?_ ((std.sorted hweak).filter p) (std'.sorted hweak')
    intro a b ha hb hba hab
    have ha' : a ∈ l.filter p := (std'.perm hweak').subset (hperm.subset ha)
    have hb' : b ∈ l.filter p := (std'.perm hweak').subset hb
    refine hkeys a ha' b hb' (le_antisymm ?_ ?_)
    · rw [← not_lt, ← hfilter b hb' a ha', hba]
      exact Bool.false_ne_true
    · rw [← not_lt, ← hfilter a ha' b hb', hab]
      exact Bool.false_ne_true

end

/-! ## The first elements -/

theorem filter_prefix_of_pairwise {p : α → Bool} {l : List α}
    (h : l.Pairwise fun a b => p b = true → p a = true) : l.filter p <+: l := by
  induction l with
  | nil => exact List.nil_prefix
  | cons a l ih =>
      obtain ⟨hfirst, hrest⟩ := List.pairwise_cons.mp h
      by_cases ha : p a = true
      · rw [List.filter_cons_of_pos ha]
        exact (List.prefix_cons_inj a).mpr (ih hrest)
      · have hnone : (a :: l).filter p = [] := by
          rw [List.filter_cons_of_neg ha, List.filter_eq_nil_iff]
          intro b hb hpb
          exact ha (hfirst b hb hpb)
        rw [hnone]
        exact List.nil_prefix

theorem prefix_of_not_mem {l front back : List α} {a : α} (h : l <+: front ++ a :: back)
    (ha : a ∉ l) : l <+: front := by
  rcases List.prefix_or_prefix_of_prefix h (List.prefix_append front (a :: back)) with hl | ⟨l', rfl⟩
  · exact hl
  · cases l' with
    | nil => rw [List.append_nil]
    | cons a' l' =>
        obtain ⟨rfl, -⟩ := List.cons_prefix_cons.mp ((List.prefix_append_right_inj front).mp h)
        exact absurd (by simp) ha

end Prog
