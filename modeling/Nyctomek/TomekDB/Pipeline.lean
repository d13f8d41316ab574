/-
# `TomekDB.Pipeline` — queries compute their relational meaning

`Denotes query tuples out` says what a query is for: each operator takes the tuples of
the one below it to its own, a sort to some sorted permutation of them.  Whatever
chain of operators is built over a scan, asking its top one until it returns none
gives such a result, as long as the tuples that reach a sort have its key and those
that reach a projection have one of its fields.

    selection       the tuples with the predicate
    limit           the first ones
    sort            a permutation, no key less than one before it
    projection      of each tuple the fields, name after name
-/
import Mathlib.Data.Prod.Lex
import Mathlib.Order.Lattice
import Nyctomek.TomekDB.Basic

namespace Nyctomek.TomekDB

open Prog

/-! ## The order of the keys -/

def Data.isNaN : Data → Bool
  | double d => d.isNaN
  | _ => false

/-- The place of a value among all values that are numbers. -/
def Data.rank : Data → Nat ×ₗ Int ×ₗ Bytes
  | int i => toLex (0, toLex (i.toInt, []))
  | double d => toLex (1, toLex (d.position, []))
  | string s => toLex (2, toLex (0, s))

theorem Data.lt_iff_rank {v w : Data} (hv : v.isNaN = false) (hw : w.isNaN = false) :
    v.lt w = true ↔ v.rank < w.rank := by
  cases v with
  | int i =>
      cases w with
      | int j => simp [lt, rank, Prod.Lex.lt_iff]
      | double e => simp [lt, rank, index, Prod.Lex.lt_iff]
      | string t => simp [lt, rank, index, Prod.Lex.lt_iff]
  | double d =>
      cases w with
      | int j => simp [lt, rank, index, Prod.Lex.lt_iff]
      | double e =>
          simp only [isNaN] at hv hw
          simp [lt, rank, Double.lt, hv, hw, Prod.Lex.lt_iff]
      | string t => simp [lt, rank, index, Prod.Lex.lt_iff]
  | string s =>
      cases w with
      | int j => simp [lt, rank, index, Prod.Lex.lt_iff]
      | double e => simp [lt, rank, index, Prod.Lex.lt_iff]
      | string t => simp [lt, rank, Prod.Lex.lt_iff]

variable {sortColumnName : Bytes} {sortOrder : SortOrder}

/-- Without NaNs the comparator is a strict weak order. -/
theorem strictWeakOn_less {records : List (Record sortColumnName)}
    (h : ∀ r ∈ records, r.key.isNaN = false) : StrictWeakOn (less sortOrder) records := by
  cases sortOrder with
  | ASCENDING =>
      refine strictWeakOn_of_key (fun r => r.key.rank) ?_
      intro a ha b hb
      exact Data.lt_iff_rank (h a ha) (h b hb)
  | DESCENDING =>
      refine strictWeakOn_of_key (fun r => OrderDual.toDual r.key.rank) ?_
      intro a ha b hb
      exact (Data.lt_iff_rank (h b hb) (h a ha)).trans OrderDual.toDual_lt_toDual.symm

/-! ## What a query is for -/

/-- No key comes before one that it should come after. -/
def SortedByColumn (sortColumnName : Bytes) (sortOrder : SortOrder) (tuples : List Tuple) : Prop :=
  tuples.Pairwise fun a b => ∀ v w, sortKey sortColumnName a = some v →
    sortKey sortColumnName b = some w →
    match sortOrder with
    | .ASCENDING => w.lt v = false
    | .DESCENDING => v.lt w = false

/-- The tuples of a query over a list of tuples. -/
inductive Denotes : Query → List Tuple → List Tuple → Prop
  | scan (tuples : List Tuple) : Denotes [] tuples tuples
  | selection {query : Query} {tuples out : List Tuple} (criteria : SelectionCriteria) :
      Denotes query tuples out →
      Denotes (.selection criteria :: query) tuples (out.filter (selectionMatches criteria))
  | limit {query : Query} {tuples out : List Tuple} (limit : Nat) :
      Denotes query tuples out → Denotes (.limit limit :: query) tuples (out.take limit)
  | sort {query : Query} {tuples out sorted : List Tuple} (sortColumnName : Bytes)
      (sortOrder : SortOrder) :
      Denotes query tuples out → sorted.Perm out → SortedByColumn sortColumnName sortOrder sorted →
      Denotes (.sort sortColumnName sortOrder :: query) tuples sorted
  | projection {query : Query} {tuples out : List Tuple} (fieldNames : List Bytes) :
      Denotes query tuples out → Denotes (.projection fieldNames :: query) tuples
        (out.map fun tuple => ⟨fieldNames.flatMap fun name => tuple.fields.filter (·.name = name)⟩)

/-- What a tuple needs to have when it reaches an operator. -/
def Operator.Accepts (tuple : Tuple) : Operator → Prop
  | .sort sortColumnName _ => (∃ field ∈ tuple.fields, field.name = sortColumnName) ∧
      ∀ field ∈ tuple.fields, field.name = sortColumnName → field.data.isNaN = false
  | .projection fieldNames => ∃ name ∈ fieldNames, ∃ field ∈ tuple.fields, field.name = name
  | _ => True

/-- Every tuple that reaches an operator has what it needs to have. -/
def Query.WellUsed (std : StdSort) (tuples : List Tuple) : Query → Prop
  | [] => True
  | operator :: query => Query.WellUsed std tuples query ∧
      ∀ reaching, Yields (Query.next std query) (Query.start tuples query) reaching →
        ∀ tuple ∈ reaching, operator.Accepts tuple

/-! ## One operator -/

variable {std : StdSort} {σ : Type} {child : Pull Error σ Tuple} {s : σ} {tuples : List Tuple}

/-- The sort key is a field of the column. -/
theorem exists_sortKey {tuple : Tuple} (h : ∃ field ∈ tuple.fields, field.name = sortColumnName) :
    ∃ field ∈ tuple.fields, field.name = sortColumnName ∧
      sortKey sortColumnName tuple = some field.data := by
  have hfold : ∀ (fields : List Field) (key : Option Data),
      let last := fields.foldl (fun key field =>
        if field.name = sortColumnName then some field.data else key) key
      (∃ field ∈ fields, field.name = sortColumnName ∧ last = some field.data) ∨
        (¬ ∃ field ∈ fields, field.name = sortColumnName) ∧ last = key := by
    intro fields
    induction fields with
    | nil => simp
    | cons field fields ih =>
        intro key
        rw [List.foldl_cons]
        rcases ih (if field.name = sortColumnName then some field.data else key) with
          ⟨f, hf, hname, hlast⟩ | ⟨hnone, hlast⟩
        · exact .inl ⟨f, List.mem_cons_of_mem _ hf, hname, hlast⟩
        · by_cases hname : field.name = sortColumnName
          · rw [if_pos hname] at hlast ⊢
            exact .inl ⟨field, by simp, hname, hlast⟩
          · rw [if_neg hname] at hlast ⊢
            exact .inr ⟨by simp [hname, hnone], hlast⟩
  exact (hfold tuple.fields none).resolve_right fun hnone => hnone.1 h

theorem Yields.projection {fieldNames : List Bytes} (h : Yields child s tuples)
    (haccepts : ∀ tuple ∈ tuples, (Operator.projection fieldNames).Accepts tuple) :
    Yields (ProjectionIterator.next fieldNames child) s
      (tuples.map fun tuple => ⟨projectedFields fieldNames tuple⟩) := by
  refine h.mapNext ?_
  intro tuple htuple
  obtain ⟨name, hname, field, hfield, hfieldName⟩ := haccepts tuple htuple
  have hmem : field ∈ projectedFields fieldNames tuple := by
    rw [projectedFields, List.mem_flatMap]
    exact ⟨name, hname, List.mem_filter.mpr ⟨hfield, decide_eq_true hfieldName⟩⟩
  exact if_pos (Nat.pos_iff_ne_zero.mp (List.length_pos_of_mem hmem))

/-- The records of tuples that have keys. -/
theorem exists_records_of_column
    (hcolumn : ∀ tuple ∈ tuples, ∃ field ∈ tuple.fields, field.name = sortColumnName) :
    ∃ records, List.Forall₂ (fun tuple r => record sortColumnName tuple = .ok r) tuples records ∧
      records.map Record.tuple = tuples := by
  induction tuples with
  | nil => exact ⟨[], .nil, rfl⟩
  | cons tuple tuples ih =>
      obtain ⟨hcolumn, hrest⟩ := List.forall_mem_cons.mp hcolumn
      obtain ⟨field, -, -, hkey⟩ := exists_sortKey hcolumn
      obtain ⟨records, hrecords, hmap⟩ := ih hrest
      have hrecord : record sortColumnName tuple = .ok ⟨tuple, field.data, hkey⟩ := by
        unfold record
        split
        · rename_i key' hkey'
          have hsame : key' = field.data := Option.some.inj (hkey'.symm.trans hkey)
          subst hsame
          rfl
        · rename_i hnone
          exact absurd (hnone.symm.trans hkey) (by simp)
      exact ⟨_ :: records, .cons hrecord hrecords, by rw [List.map_cons, hmap]⟩

/-- No key of tuples that a sort accepts is NaN. -/
theorem exists_records (haccepts : ∀ tuple ∈ tuples,
    (Operator.sort sortColumnName sortOrder).Accepts tuple) :
    ∃ records, List.Forall₂ (fun tuple r => record sortColumnName tuple = .ok r) tuples records ∧
      records.map Record.tuple = tuples ∧ ∀ r ∈ records, r.key.isNaN = false := by
  obtain ⟨records, hrecords, hmap⟩ :=
    exists_records_of_column fun tuple htuple => (haccepts tuple htuple).1
  refine ⟨records, hrecords, hmap, ?_⟩
  intro r hr
  have htuple : r.tuple ∈ tuples := by
    rw [← hmap]
    exact List.mem_map_of_mem hr
  obtain ⟨hcolumn, hnan⟩ := haccepts r.tuple htuple
  obtain ⟨field, hfield, hname, hkey⟩ := exists_sortKey hcolumn
  rw [show r.key = field.data from Option.some.inj (r.hasKey.symm.trans hkey)]
  exact hnan field hfield hname

/-- From a filled buffer the records come one after the other. -/
theorem yields_current {d_tuples rest : List (Record sortColumnName)} {i : Nat}
    (hne : d_tuples.length ≠ 0) (hrest : d_tuples.drop i = rest) :
    Yields (SortIterator.next std sortColumnName sortOrder child) ⟨d_tuples, i, s⟩
      (rest.map Record.tuple) := by
  have hnext : ∀ i, Ends (fun n => SortIterator.next std sortColumnName sortOrder child n
      ⟨d_tuples, i, s⟩) (.ok (SortState.current ⟨d_tuples, i, s⟩)) := by
    intro i
    refine Ends.congr (fun n => ?_) (Ends.const _)
    rw [SortIterator.next, if_neg hne]
    rfl
  induction rest generalizing i with
  | nil =>
      have hend := hnext i
      have hcurrent : d_tuples[i]? = none :=
        List.getElem?_eq_none_iff.mpr (List.drop_eq_nil_iff.mp hrest)
      simp only [SortState.current, hcurrent] at hend
      exact .nil hend
  | cons r rest ih =>
      have hsome := hnext i
      have hcurrent : d_tuples[i]? = some r := by
        rw [← List.head?_drop, hrest, List.head?_cons]
      simp only [SortState.current, hcurrent] at hsome
      refine .cons hsome (ih ?_)
      rw [← List.drop_drop, hrest]
      rfl

/-- A sort yields the sorted records' tuples. -/
theorem Yields.sort_records (h : Yields child s tuples) {records : List (Record sortColumnName)}
    (hrecords : List.Forall₂ (fun tuple r => record sortColumnName tuple = .ok r) tuples records)
    (hweak : StrictWeakOn (less sortOrder) records) :
    Yields (SortIterator.next std sortColumnName sortOrder child) ⟨[], 0, s⟩
      ((std.sort (less sortOrder) records).map Record.tuple) := by
  obtain ⟨s', hcollect⟩ := h.collect hrecords
  have hfirst : Ends (fun n => SortIterator.next std sortColumnName sortOrder child n ⟨[], 0, s⟩)
      (.ok (SortState.current ⟨std.sort (less sortOrder) records, 0, s'⟩)) := by
    refine hcollect.bind ?_
    cases records with
    | nil =>
        have hnil : std.sort (less sortOrder) [] = [] := List.perm_nil.mp (std.perm hweak)
        rw [hnil]
        exact Ends.const _
    | cons r records => exact Ends.const _
  cases hsort : std.sort (less sortOrder) records with
  | nil =>
      rw [hsort] at hfirst
      exact .nil hfirst
  | cons r rest =>
      rw [hsort] at hfirst
      exact .cons hfirst (yields_current (by simp) rfl)

/-- What `std::sort` promises for the records holds for their tuples. -/
theorem Yields.sort_of_strictWeakOn (h : Yields child s tuples)
    {records : List (Record sortColumnName)}
    (hrecords : List.Forall₂ (fun tuple r => record sortColumnName tuple = .ok r) tuples records)
    (hmap : records.map Record.tuple = tuples) (hweak : StrictWeakOn (less sortOrder) records) :
    ∃ out, Yields (SortIterator.next std sortColumnName sortOrder child) ⟨[], 0, s⟩ out ∧
      out.Perm tuples ∧ SortedByColumn sortColumnName sortOrder out := by
  refine ⟨_, Yields.sort_records h hrecords hweak, ?_, ?_⟩
  · rw [← hmap]
    exact (std.perm hweak).map _
  · rw [SortedByColumn, List.pairwise_map]
    refine (std.sorted hweak).imp ?_
    intro a b hab v w hv hw
    obtain rfl := Option.some.inj (a.hasKey.symm.trans hv)
    obtain rfl := Option.some.inj (b.hasKey.symm.trans hw)
    cases sortOrder with
    | ASCENDING => exact hab
    | DESCENDING => exact hab

/-- **A sort** yields what `std::sort` makes of what its child yields. -/
theorem Yields.sort (h : Yields child s tuples)
    (haccepts : ∀ tuple ∈ tuples, (Operator.sort sortColumnName sortOrder).Accepts tuple) :
    ∃ out, Yields (SortIterator.next std sortColumnName sortOrder child) ⟨[], 0, s⟩ out ∧
      out.Perm tuples ∧ SortedByColumn sortColumnName sortOrder out := by
  obtain ⟨records, hrecords, hmap, hnan⟩ := exists_records haccepts
  exact Yields.sort_of_strictWeakOn h hrecords hmap (strictWeakOn_less hnan)

/-! ## Whole queries -/

/-- **Every chain** of operators yields tuples of its query. -/
theorem query_yields {query : Query} (h : query.WellUsed std tuples) :
    ∃ out, Yields (query.next std) (query.start tuples) out ∧ Denotes query tuples out := by
  induction query with
  | nil => exact ⟨tuples, yields_listNext tuples, .scan tuples⟩
  | cons operator query ih =>
      obtain ⟨hquery, haccepts⟩ := h
      obtain ⟨out, hyields, hdenotes⟩ := ih hquery
      cases operator with
      | selection criteria => exact ⟨_, hyields.filterNext, .selection criteria hdenotes⟩
      | limit limit => exact ⟨_, hyields.takeNext limit, .limit limit hdenotes⟩
      | sort sortColumnName sortOrder =>
          obtain ⟨sorted, hsorted, hperm, horder⟩ := Yields.sort hyields (haccepts out hyields)
          exact ⟨sorted, hsorted, .sort sortColumnName sortOrder hdenotes hperm horder⟩
      | projection fieldNames =>
          exact ⟨_, Yields.projection hyields (haccepts out hyields),
            .projection fieldNames hdenotes⟩

/-- **Queries compute their relational meaning**: asking until `nullopt` comes gives the
tuples of the query, and these are all that it gives. -/
theorem query_results {query : Query} (h : query.WellUsed std tuples) :
    ∃ out, Ends (query.results std tuples) (.ok out) ∧ Denotes query tuples out := by
  obtain ⟨out, hyields, hdenotes⟩ := query_yields h
  have hchecked : List.Forall₂ (fun tuple tuple' => (Except.ok tuple : Except Error Tuple) = .ok tuple')
      out out := List.forall₂_same.mpr fun _ _ => rfl
  obtain ⟨s', hcollect⟩ := hyields.collect hchecked
  exact ⟨out, hcollect.bind (Ends.const _), hdenotes⟩

/-- A limit over a sort over a scan. -/
theorem query_results_top : ∃ out, Ends (Query.results mergeSort
    [.limit 1, .sort [97] .DESCENDING] [⟨[⟨[97], .int 1⟩]⟩, ⟨[⟨[97], .int 2⟩]⟩]) (.ok out) ∧
    Denotes [.limit 1, .sort [97] .DESCENDING] [⟨[⟨[97], .int 1⟩]⟩, ⟨[⟨[97], .int 2⟩]⟩] out := by
  refine query_results ⟨⟨trivial, ?_⟩, fun _ _ _ _ => trivial⟩
  intro reaching hreaching
  obtain rfl := hreaching.unique (yields_listNext _)
  simp [Operator.Accepts, Data.isNaN, Query.start]

end Nyctomek.TomekDB
