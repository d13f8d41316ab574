/-
# `TomekDB.Comparison` — what selections and sorts compare

A selection compares the first field of its name (`selectionMatches_eq`), a sort the last
(`sortKey`).  Both compare values with the operators of `std::variant`.

    v before w            ASCENDING, LESS_THAN        v < w
                          DESCENDING, GREATER_THAN    w < v

`selectsPrefix_iff` says when the tuples that are selected come first in the sorted ones.
-/
import Nyctomek.TomekDB.Pipeline

namespace Nyctomek.TomekDB

open Prog

/-! ## The value that a selection compares -/

/-- The data of the first field of the name. -/
def firstValue (fieldName : Bytes) (tuple : Tuple) : Option Data :=
  (tuple.fields.find? (·.name = fieldName)).map Field.data

/-- `data op value`. -/
def ComparisonOperator.holds (comparisonOperator : ComparisonOperator) (data value : Data) : Bool :=
  match comparisonOperator with
  | .EQUALS => data.eq value
  | .NOT_EQUAL => !data.eq value
  | .GREATER_THAN => value.lt data
  | .LESS_THAN => data.lt value

theorem selectionMatches_eq (criteria : SelectionCriteria) (tuple : Tuple) :
    selectionMatches criteria tuple = (firstValue criteria.fieldName tuple).any
      fun data => criteria.comparisonOperator.holds data criteria.fieldValue := by
  rw [selectionMatches, firstValue]
  cases tuple.fields.find? (·.name = criteria.fieldName) with
  | none => rfl
  | some field => cases criteria.comparisonOperator <;> rfl

theorem exists_firstValue {fieldName : Bytes} {tuple : Tuple}
    (h : ∃ field ∈ tuple.fields, field.name = fieldName) :
    ∃ data, firstValue fieldName tuple = some data := by
  obtain ⟨field, hmem, hname⟩ := h
  have hfind : (tuple.fields.find? (·.name = fieldName)).isSome = true :=
    List.find?_isSome.mpr ⟨field, hmem, decide_eq_true hname⟩
  obtain ⟨first, hfirst⟩ := Option.isSome_iff_exists.mp hfind
  exact ⟨first.data, by rw [firstValue, hfirst]; rfl⟩

/-! ## Selections and sorts -/

/-- What comes before in the order. -/
def SortOrder.before (sortOrder : SortOrder) (v w : Data) : Bool :=
  match sortOrder with
  | .ASCENDING => v.lt w
  | .DESCENDING => w.lt v

/-- The selection of what comes before a value. -/
def SortOrder.selecting : SortOrder → ComparisonOperator
  | .ASCENDING => .LESS_THAN
  | .DESCENDING => .GREATER_THAN

variable {c : Bytes} {sortOrder : SortOrder} {v : Data} {std : StdSort} {σ : Type}
  {child : Pull Error σ Tuple} {s : σ} {tuples : List Tuple}

theorem selectionMatches_before (tuple : Tuple) :
    selectionMatches ⟨c, v, sortOrder.selecting⟩ tuple
      = (firstValue c tuple).any fun data => sortOrder.before data v := by
  rw [selectionMatches_eq]
  cases sortOrder <;> rfl

theorem less_eq_before (a b : Record c) : less sortOrder a b = sortOrder.before a.key b.key := by
  cases sortOrder <;> rfl

/-- The tuples that the selection of what comes before `v` accepts are the first of the sort. -/
def SelectsPrefix (std : StdSort) (c : Bytes) (sortOrder : SortOrder) (v : Data)
    (child : Pull Error σ Tuple) (s : σ) : Prop :=
  ∃ accepted out front,
    Yields (SelectionIterator.next ⟨c, v, sortOrder.selecting⟩ child) s accepted ∧
    Yields (SortIterator.next std c sortOrder child) ⟨[], 0, s⟩ out ∧
    front <+: out ∧ front.Perm accepted

/-- Of two tuples of which only the first is selected, the first comes first in the sort. -/
def Aligned (c : Bytes) (sortOrder : SortOrder) (v : Data) (tuples : List Tuple) : Prop :=
  ∀ a ∈ tuples, ∀ b ∈ tuples, ∀ first last first' last',
    firstValue c a = some first → sortKey c a = some last →
    firstValue c b = some first' → sortKey c b = some last' →
    sortOrder.before first v = true → sortOrder.before first' v = false →
    sortOrder.before last last' = true

theorem selectsPrefix_of_aligned (h : Yields child s tuples)
    (haccepts : ∀ tuple ∈ tuples, (Operator.sort c sortOrder).Accepts tuple)
    (haligned : Aligned c sortOrder v tuples) : SelectsPrefix std c sortOrder v child s := by
  obtain ⟨out, hout, hperm, hsorted⟩ := @Yields.sort _ _ std _ _ _ _ h haccepts
  refine ⟨_, out, out.filter (selectionMatches ⟨c, v, sortOrder.selecting⟩), h.filterNext, hout, ?_,
    hperm.filter _⟩
  refine filter_prefix_of_pairwise (hsorted.imp_of_mem ?_)
  intro b a hb ha horder hsel
  by_contra hnot
  rw [Bool.not_eq_true] at hnot
  have hcolumn := (haccepts b (hperm.mem_iff.mp hb)).1
  obtain ⟨first', hfirst'⟩ := exists_firstValue hcolumn
  obtain ⟨field', -, -, hlast'⟩ := exists_sortKey hcolumn
  have hcolumn := (haccepts a (hperm.mem_iff.mp ha)).1
  obtain ⟨first, hfirst⟩ := exists_firstValue hcolumn
  obtain ⟨field, -, -, hlast⟩ := exists_sortKey hcolumn
  rw [selectionMatches_before, hfirst] at hsel
  rw [selectionMatches_before, hfirst'] at hnot
  have hbefore := haligned a (hperm.mem_iff.mp ha) b (hperm.mem_iff.mp hb) _ _ _ _ hfirst hlast
    hfirst' hlast' hsel hnot
  have hafter := horder _ _ hlast' hlast
  cases sortOrder with
  | ASCENDING => exact absurd hbefore (by rw [SortOrder.before, hafter]; exact Bool.false_ne_true)
  | DESCENDING => exact absurd hbefore (by rw [SortOrder.before, hafter]; exact Bool.false_ne_true)

theorem aligned_of_selectsPrefix (h : Yields child s tuples)
    (haccepts : ∀ tuple ∈ tuples, (Operator.sort c sortOrder).Accepts tuple)
    (hpre : ∀ std, SelectsPrefix std c sortOrder v child s) : Aligned c sortOrder v tuples := by
  intro a ha b hb first last first' last' hfirst hlast hfirst' hlast' hsel hnot
  obtain ⟨records, hrecords, hmap, hnan⟩ := exists_records haccepts
  obtain ⟨r', hr', rfl⟩ : ∃ r' ∈ records, r'.tuple = b := by
    rw [← hmap] at hb
    exact List.mem_map.mp hb
  -- a sort that puts `b` before all that do not come before it
  obtain ⟨std, front, back, hsort, hfront⟩ := exists_sort_first (less sortOrder) hr'
  obtain ⟨accepted, out, selected, haccepted, hout, hpre, hperm⟩ := hpre std
  obtain rfl := haccepted.unique h.filterNext
  obtain rfl := hout.unique (Yields.sort_records h hrecords (strictWeakOn_less hnan))
  have hmem : a ∈ selected := by
    rw [hperm.mem_iff, List.mem_filter, selectionMatches_before, hfirst]
    exact ⟨ha, hsel⟩
  have hnotMem : r'.tuple ∉ selected := by
    rw [hperm.mem_iff, List.mem_filter, selectionMatches_before, hfirst']
    rintro ⟨-, hmatches⟩
    rw [show sortOrder.before first' v = true from hmatches] at hnot
    cases hnot
  rw [hsort, List.map_append, List.map_cons] at hpre
  obtain ⟨r, hr, rfl⟩ := List.mem_map.mp ((prefix_of_not_mem hpre hnotMem).subset hmem)
  obtain rfl := Option.some.inj (r.hasKey.symm.trans hlast)
  obtain rfl := Option.some.inj (r'.hasKey.symm.trans hlast')
  rw [← less_eq_before]
  exact hfront r hr

/-- The value of the selection may be a NaN, which only other alternatives are compared with. -/
theorem before_of_before {w x : Data} (hw : w.isNaN = false) (hx : x.isNaN = false)
    (hwv : sortOrder.before w v = true) (hxv : sortOrder.before x v = false) :
    sortOrder.before w x = true := by
  cases hv : v.isNaN with
  | false =>
      rw [← Bool.not_eq_true] at hxv
      cases sortOrder with
      | ASCENDING =>
          rw [SortOrder.before, Data.lt_iff_rank hw hv] at hwv
          rw [SortOrder.before, Data.lt_iff_rank hx hv, not_lt] at hxv
          exact (Data.lt_iff_rank hw hx).mpr (hwv.trans_le hxv)
      | DESCENDING =>
          rw [SortOrder.before, Data.lt_iff_rank hv hw] at hwv
          rw [SortOrder.before, Data.lt_iff_rank hv hx, not_lt] at hxv
          exact (Data.lt_iff_rank hx hw).mpr (hxv.trans_lt hwv)
  | true =>
      cases v with
      | int i => cases hv
      | string t => cases hv
      | double d =>
          rw [Data.isNaN] at hv
          cases sortOrder <;> cases w <;> cases x <;>
            simp_all [SortOrder.before, Data.lt, Data.index, Double.lt]

/-- Without a repeated column they agree. -/
theorem aligned_of_once
    (hnan : ∀ tuple ∈ tuples, ∀ data, sortKey c tuple = some data → data.isNaN = false)
    (honce : ∀ tuple ∈ tuples, firstValue c tuple = sortKey c tuple) :
    Aligned c sortOrder v tuples := by
  intro a ha b hb first last first' last' hfirst hlast hfirst' hlast' hbefore hnot
  obtain rfl := Option.some.inj (hfirst.symm.trans ((honce a ha).trans hlast))
  obtain rfl := Option.some.inj (hfirst'.symm.trans ((honce b hb).trans hlast'))
  exact before_of_before (hnan a ha _ hlast) (hnan b hb _ hlast') hbefore hnot

/-- **Selections and sorts** agree, whatever `std::sort` does, if and only if of two tuples of
which only one is selected the last field of the name comes first in that one. -/
theorem selectsPrefix_iff (h : Yields child s tuples)
    (hcolumn : ∀ tuple ∈ tuples, ∃ field ∈ tuple.fields, field.name = c)
    (hnan : ∀ tuple ∈ tuples, ∀ field ∈ tuple.fields, field.name = c → field.data.isNaN = false)
    (v : Data) : (∀ std sortOrder, SelectsPrefix std c sortOrder v child s)
      ↔ ∀ sortOrder, Aligned c sortOrder v tuples := by
  have haccepts : ∀ sortOrder, ∀ tuple ∈ tuples, (Operator.sort c sortOrder).Accepts tuple :=
    fun _ tuple htuple => ⟨hcolumn tuple htuple, hnan tuple htuple⟩
  constructor
  · intro hpre sortOrder
    exact aligned_of_selectsPrefix h (haccepts sortOrder) fun std => hpre std sortOrder
  · intro haligned std sortOrder
    exact selectsPrefix_of_aligned h (haccepts sortOrder) (haligned sortOrder)

theorem selectsPrefix_iff_int :
    (∀ std sortOrder, SelectsPrefix std [99] sortOrder (.int 3) listNext
        [⟨[⟨[99], .int 5⟩]⟩, ⟨[⟨[99], .int 1⟩]⟩])
      ↔ ∀ sortOrder, Aligned [99] sortOrder (.int 3) [⟨[⟨[99], .int 5⟩]⟩, ⟨[⟨[99], .int 1⟩]⟩] :=
  selectsPrefix_iff (yields_listNext _) (by simp) (by simp [Data.isNaN]) (.int 3)

/-- The first tuple is selected by its first field, and comes last by its last. -/
theorem not_selectsPrefix_repeated :
    ¬SelectsPrefix insertionSort [99] .ASCENDING (.int 3) listNext
      [⟨[⟨[99], .int 1⟩, ⟨[99], .int 9⟩]⟩, ⟨[⟨[99], .int 5⟩]⟩] := by
  intro hpre
  obtain ⟨accepted, out, front, haccepted, hout, hpre, hperm⟩ := hpre
  obtain rfl := haccepted.unique (yields_listNext _).filterNext
  let records : List (Record [99]) :=
    [⟨⟨[⟨[99], .int 1⟩, ⟨[99], .int 9⟩]⟩, .int 9, rfl⟩, ⟨⟨[⟨[99], .int 5⟩]⟩, .int 5, rfl⟩]
  have hnan : ∀ r ∈ records, r.key.isNaN = false := by
    simp [records, Data.isNaN]
  have hrecords : List.Forall₂ (fun tuple r => record [99] tuple = .ok r)
      [⟨[⟨[99], .int 1⟩, ⟨[99], .int 9⟩]⟩, ⟨[⟨[99], .int 5⟩]⟩] records := .cons rfl (.cons rfl .nil)
  obtain rfl := hout.unique
    (Yields.sort_records (yields_listNext _) hrecords (strictWeakOn_less hnan))
  obtain rfl : front = [⟨[⟨[99], .int 1⟩, ⟨[99], .int 9⟩]⟩] := List.perm_singleton.mp hperm
  exact absurd hpre (by decide)

end Nyctomek.TomekDB
