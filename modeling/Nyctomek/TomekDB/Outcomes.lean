/-
# `TomekDB.Outcomes` — what every query comes to

A query need not be used well: a tuple may come to a sort without the sort column, or to a
projection without any of the fields.  The first throws, and what is above the sort throws
with it; the second is taken for the end.  `ComesTo tuples query r` has these cases
beside the others, and every query over tuples without NaNs comes to such an `r`.

    a limit of 0 over a sort that throws      no tuples: the sort is never asked
    a sort over a projection                  the tuples before the first without fields

Selecting first or sorting first makes a difference for what is thrown, and for the order
of tuples with equal keys; otherwise it makes none (`selection_sort_iff`).
-/
import Nyctomek.TomekDB.Comparator
import Nyctomek.TomekDB.FailedSort

namespace Nyctomek.TomekDB

open Prog

/-! ## Every query -/

/-- A projection has something to show of the tuple. -/
def HasField (fieldNames : List Bytes) (tuple : Tuple) : Bool :=
  fieldNames.any fun name => tuple.fields.any (·.name = name)

/-- What a query over a list of tuples may come to: its tuples, or what it throws. -/
inductive ComesTo (tuples : List Tuple) : Query → Except Error (List Tuple) → Prop
  | scan : ComesTo tuples [] (.ok tuples)
  | selection {query : Query} {out : List Tuple} (criteria : SelectionCriteria) :
      ComesTo tuples query (.ok out) →
      ComesTo tuples (.selection criteria :: query) (.ok (out.filter (selectionMatches criteria)))
  | limit {query : Query} {out : List Tuple} (limit : Nat) :
      ComesTo tuples query (.ok out) → ComesTo tuples (.limit limit :: query) (.ok (out.take limit))
  | limitZero (query : Query) : ComesTo tuples (.limit 0 :: query) (.ok [])
  | sort {query : Query} {out sorted : List Tuple} (sortColumnName : Bytes) (sortOrder : SortOrder) :
      ComesTo tuples query (.ok out) → (∀ tuple ∈ out, HasColumn sortColumnName tuple) →
      sorted.Perm out → SortedByColumn sortColumnName sortOrder sorted →
      ComesTo tuples (.sort sortColumnName sortOrder :: query) (.ok sorted)
  | sortKeyMissing {query : Query} {front rest : List Tuple} {bad : Tuple} (sortColumnName : Bytes)
      (sortOrder : SortOrder) :
      ComesTo tuples query (.ok (front ++ bad :: rest)) →
      (∀ tuple ∈ front, HasColumn sortColumnName tuple) → ¬HasColumn sortColumnName bad →
      ComesTo tuples (.sort sortColumnName sortOrder :: query)
        (.error (.sortKeyMissing sortColumnName bad))
  | projection {query : Query} {out : List Tuple} (fieldNames : List Bytes) :
      ComesTo tuples query (.ok out) → ComesTo tuples (.projection fieldNames :: query)
        (.ok ((out.takeWhile (HasField fieldNames)).map fun tuple =>
          ⟨fieldNames.flatMap fun name => tuple.fields.filter (·.name = name)⟩))
  | thrown {query : Query} {e : Error} (operator : Operator) :
      ComesTo tuples query (.error e) → operator ≠ .limit 0 →
      ComesTo tuples (operator :: query) (.error e)

variable {tuples : List Tuple}

/-- **Nothing is made up**: every tuple of the outcome has its fields from one of the list. -/
theorem ComesTo.fields_subset {query : Query} {out : List Tuple}
    (h : ComesTo tuples query (.ok out)) :
    ∀ tuple ∈ out, ∃ scanned ∈ tuples, tuple.fields ⊆ scanned.fields := by
  generalize hr : (Except.ok out : Except Error (List Tuple)) = r at h
  induction h generalizing out with
  | scan =>
      obtain rfl := Except.ok.inj hr
      exact fun tuple htuple => ⟨tuple, htuple, List.Subset.refl _⟩
  | selection criteria _ ih =>
      obtain rfl := Except.ok.inj hr
      exact fun tuple htuple => ih rfl tuple (List.mem_filter.mp htuple).1
  | limit limit _ ih =>
      obtain rfl := Except.ok.inj hr
      exact fun tuple htuple => ih rfl tuple (List.mem_of_mem_take htuple)
  | limitZero query =>
      obtain rfl := Except.ok.inj hr
      rintro _ ⟨⟩
  | sort sortColumnName sortOrder _ _ hperm _ ih =>
      obtain rfl := Except.ok.inj hr
      exact fun tuple htuple => ih rfl tuple (hperm.subset htuple)
  | sortKeyMissing _ _ _ _ _ _ => cases hr
  | projection fieldNames _ ih =>
      obtain rfl := Except.ok.inj hr
      intro tuple htuple
      obtain ⟨whole, hwhole, rfl⟩ := List.mem_map.mp htuple
      obtain ⟨scanned, hscanned, hsub⟩ := ih rfl whole (List.takeWhile_sublist _ |>.subset hwhole)
      refine ⟨scanned, hscanned, ?_⟩
      intro field hfield
      obtain ⟨name, -, hmem⟩ := List.mem_flatMap.mp hfield
      exact hsub (List.mem_filter.mp hmem).1
  | thrown _ _ _ _ => cases hr

/-- The values of the list are numbers, strings and no NaNs. -/
def NoNaN (tuples : List Tuple) : Prop :=
  ∀ tuple ∈ tuples, ∀ field ∈ tuple.fields, field.data.isNaN = false

section
variable {std : StdSort} {σ : Type} {child : Pull Error σ Tuple} {s : σ} {out : List Tuple}
  {sortColumnName : Bytes} {sortOrder : SortOrder} {e : Error}

theorem project_eq (fieldNames : List Bytes) (tuple : Tuple) :
    project fieldNames tuple
      = if HasField fieldNames tuple then some ⟨projectedFields fieldNames tuple⟩ else none := by
  rw [project, projectedFields]
  refine if_congr ?_ rfl rfl
  rw [← Nat.pos_iff_ne_zero, List.length_pos_iff_exists_mem]
  simp [HasField]

theorem filterMap_project (fieldNames : List Bytes) (tuples : List Tuple) :
    (tuples.takeWhile fun tuple => (project fieldNames tuple).isSome).filterMap (project fieldNames)
      = (tuples.takeWhile (HasField fieldNames)).map fun tuple =>
          ⟨fieldNames.flatMap fun name => tuple.fields.filter (·.name = name)⟩ := by
  induction tuples with
  | nil => rfl
  | cons tuple tuples ih =>
      have hproject := project_eq fieldNames tuple
      cases hfield : HasField fieldNames tuple with
      | false =>
          rw [hfield] at hproject
          rw [List.takeWhile_cons_of_neg (by simp [hproject]),
            List.takeWhile_cons_of_neg (by simp [hfield])]
          rfl
      | true =>
          rw [hfield, if_pos rfl] at hproject
          rw [List.takeWhile_cons_of_pos (by simp [hproject]),
            List.takeWhile_cons_of_pos hfield, List.filterMap_cons_some hproject, ih]
          rfl

/-- An operator throws what the one below it throws, if it asks it at all. -/
theorem operator_throws {query : Query} {operator : Operator}
    (h : Ends (fun n => query.next std n (query.start tuples)) (.error e))
    (hne : operator ≠ .limit 0) :
    Ends (fun n => Query.next std (operator :: query) n (Query.start tuples (operator :: query)))
      (.error e) := by
  cases operator with
  | selection criteria => exact h.filterNext_error
  | limit limit =>
      cases limit with
      | zero => exact absurd rfl hne
      | succ limit => exact h.takeNext_error limit
  | sort sortColumnName sortOrder => exact h.collect_error.bind_error
  | projection fieldNames => exact h.mapNext_error

/-- A sort throws at the first tuple without the column. -/
theorem sort_throws {front rest : List Tuple} {bad : Tuple}
    (h : Yields child s (front ++ bad :: rest))
    (hfront : ∀ tuple ∈ front, HasColumn sortColumnName tuple)
    (hbad : ¬HasColumn sortColumnName bad) :
    Ends (fun n => SortIterator.next std sortColumnName sortOrder child n ⟨[], 0, s⟩)
      (.error (.sortKeyMissing sortColumnName bad)) := by
  obtain ⟨records, hrecords, -⟩ := exists_records_of_column hfront
  exact (h.collect_error hrecords (record_error hbad)).bind_error

/-- Without NaNs the comparator of a sort is a strict weak order. -/
theorem NoNaN.oneNumber {tuples : List Tuple} (h : NoNaN tuples) (sortColumnName : Bytes)
    (hall : ∀ tuple ∈ tuples, HasColumn sortColumnName tuple) :
    OneNumberBesideNaN sortColumnName tuples := by
  intro tuple htuple nan hkey hnan
  obtain ⟨field, hfield, -, hdata⟩ := exists_sortKey (hall tuple htuple)
  have hnumber := h tuple htuple field hfield
  rw [Option.some.inj (hdata.symm.trans hkey), Data.isNaN, hnan] at hnumber
  cases hnumber

/-- What a sort gives: sorted tuples, or the first one that has not the column. -/
theorem sort_gives (std : StdSort) (sortColumnName : Bytes) (sortOrder : SortOrder)
    (h : Yields child s out) (hnan : NoNaN out) :
    (∃ sorted, Yields (SortIterator.next std sortColumnName sortOrder child) ⟨[], 0, s⟩ sorted ∧
      (∀ tuple ∈ out, HasColumn sortColumnName tuple) ∧ sorted.Perm out ∧
      SortedByColumn sortColumnName sortOrder sorted) ∨
    ∃ front bad rest, out = front ++ bad :: rest ∧
      (∀ tuple ∈ front, HasColumn sortColumnName tuple) ∧ ¬HasColumn sortColumnName bad ∧
      Ends (fun n => SortIterator.next std sortColumnName sortOrder child n ⟨[], 0, s⟩)
        (.error (.sortKeyMissing sortColumnName bad)) := by
  by_cases hall : ∀ tuple ∈ out, HasColumn sortColumnName tuple
  · refine .inl ?_
    obtain ⟨sorted, hsorted, hperm, horder⟩ :=
      Yields.sort_of_oneNumber h hall (hnan.oneNumber sortColumnName hall)
    exact ⟨sorted, hsorted, hall, hperm, horder⟩
  · refine .inr ?_
    simp only [not_forall, exists_prop] at hall
    obtain ⟨front, bad, rest, rfl, hfront, hbad⟩ := exists_first_missing hall
    exact ⟨front, bad, rest, rfl, hfront, hbad, sort_throws h hfront hbad⟩

end

/-- **One operator more**, whatever the query below it has come to. -/
theorem query_gives (std : StdSort) (hnan : NoNaN tuples) (query : Query) :
    ∃ r, Gives (query.next std) (query.start tuples) r ∧ ComesTo tuples query r := by
  induction query with
  | nil => exact ⟨_, .items (yields_listNext tuples), .scan⟩
  | cons operator query ih =>
      obtain ⟨r, hgives, hcomes⟩ := ih
      cases hgives with
      | fails hfails =>
          by_cases hzero : operator = .limit 0
          · subst hzero
            exact ⟨_, .items (.nil (Ends.const _)), .limitZero query⟩
          · exact ⟨_, .fails (operator_throws hfails hzero), .thrown operator hcomes hzero⟩
      | @items out hyields =>
          cases operator with
          | selection criteria => exact ⟨_, .items hyields.filterNext, .selection criteria hcomes⟩
          | limit limit => exact ⟨_, .items (hyields.takeNext limit), .limit limit hcomes⟩
          | projection fieldNames =>
              have hproject := hyields.mapNext_takeWhile (f := project fieldNames)
              rw [filterMap_project] at hproject
              exact ⟨_, .items hproject, .projection fieldNames hcomes⟩
          | sort sortColumnName sortOrder =>
              have hout : NoNaN out := by
                intro tuple htuple field hfield
                obtain ⟨scanned, hscanned, hsub⟩ := hcomes.fields_subset tuple htuple
                exact hnan scanned hscanned field (hsub hfield)
              rcases sort_gives std sortColumnName sortOrder hyields hout with
                ⟨sorted, hsorted, hall, hperm, horder⟩ | ⟨front, bad, rest, rfl, hfront, hbad, hthrows⟩
              · exact ⟨_, .items hsorted, .sort sortColumnName sortOrder hcomes hall hperm horder⟩
              · exact ⟨_, .fails hthrows, .sortKeyMissing sortColumnName sortOrder hcomes hfront hbad⟩

/-- **What a query does on tuples that nothing is known of**: asking its top operator until
`nullopt` comes ends, with tuples or with an exception that the query may come to. -/
theorem query_comesTo (std : StdSort) (query : Query) (hnan : NoNaN tuples) :
    ∃ r, Ends (query.results std tuples) r ∧ ComesTo tuples query r := by
  obtain ⟨r, hgives, hcomes⟩ := query_gives std hnan query
  refine ⟨r, ?_, hcomes⟩
  cases hgives with
  | fails hfails => exact hfails.collect_error.bind_error
  | items hyields =>
      obtain ⟨s', hcollect⟩ := hyields.collect_ok
      exact hcollect.bind (Ends.const _)

/-- A limit of 0 over a sort that throws, and a projection over both. -/
theorem query_comesTo_limitZero : ∃ r,
    Ends (Query.results mergeSort [.projection [[98]], .limit 0, .sort [97] .ASCENDING]
      [⟨[⟨[98], .int 1⟩]⟩]) r ∧
    ComesTo [⟨[⟨[98], .int 1⟩]⟩] [.projection [[98]], .limit 0, .sort [97] .ASCENDING] r :=
  query_comesTo mergeSort _ (by simp [NoNaN, Data.isNaN])

/-! ## Selecting and sorting -/

/-- The first tuple that a sort throws at. -/
def firstWithout (sortColumnName : Bytes) (tuples : List Tuple) : Option Tuple :=
  tuples.find? fun tuple => !tuple.fields.any (·.name = sortColumnName)

section
variable {std : StdSort} {σ : Type} {child : Pull Error σ Tuple} {s : σ}
  {sortColumnName : Bytes} {sortOrder : SortOrder}

theorem any_name_iff {tuple : Tuple} :
    tuple.fields.any (·.name = sortColumnName) = true ↔ HasColumn sortColumnName tuple := by
  simp [HasColumn]

theorem firstWithout_eq_none :
    firstWithout sortColumnName tuples = none ↔ ∀ tuple ∈ tuples, HasColumn sortColumnName tuple := by
  rw [firstWithout, List.find?_eq_none]
  refine forall₂_congr fun tuple _ => ?_
  rw [Bool.not_eq_true', Bool.not_eq_false, any_name_iff]

/-- A sort throws at the first tuple without the column. -/
theorem sort_throws_firstWithout (h : Yields child s tuples) {bad : Tuple}
    (hbad : firstWithout sortColumnName tuples = some bad) :
    Gives (SortIterator.next std sortColumnName sortOrder child) ⟨[], 0, s⟩
      (.error (.sortKeyMissing sortColumnName bad)) := by
  obtain ⟨hmissing, front, rest, rfl, hfront⟩ := List.find?_eq_some_iff_append.mp hbad
  rw [Bool.not_eq_true', ← Bool.not_eq_true, any_name_iff] at hmissing
  refine .fails (sort_throws h ?_ hmissing)
  intro tuple htuple
  rw [← any_name_iff]
  simpa using hfront tuple htuple

theorem firstWithout_filter {p : Tuple → Bool} {bad : Tuple}
    (hbad : firstWithout sortColumnName tuples = some bad) (hp : p bad = true) :
    firstWithout sortColumnName (tuples.filter p) = some bad := by
  obtain ⟨hmissing, front, rest, rfl, hfront⟩ := List.find?_eq_some_iff_append.mp hbad
  refine List.find?_eq_some_iff_append.mpr ⟨hmissing, front.filter p, rest.filter p, ?_, ?_⟩
  · rw [List.filter_append, List.filter_cons_of_pos hp]
  · exact fun tuple htuple => hfront tuple (List.mem_filter.mp htuple).1

theorem record_tuple (r : Record sortColumnName) : record sortColumnName r.tuple = .ok r := by
  obtain ⟨tuple, key, hkey⟩ := r
  rw [record]
  split
  · rename_i key' hkey'
    obtain rfl : key' = key := Option.some.inj (hkey'.symm.trans hkey)
    rfl
  · rename_i hnone
    exact absurd (hnone.symm.trans hkey) (Option.some_ne_none key).symm

theorem forall₂_record (records : List (Record sortColumnName)) :
    List.Forall₂ (fun tuple r => record sortColumnName tuple = .ok r) (records.map Record.tuple)
      records :=
  List.forall₂_map_left_iff.mpr (List.forall₂_same.mpr fun r _ => record_tuple r)

/-- A tuple has one record. -/
theorem tuple_inj {r r' : Record sortColumnName} : r.tuple = r'.tuple ↔ r = r' := by
  constructor
  · intro htuple
    have hrecord := record_tuple r
    rw [htuple, record_tuple r'] at hrecord
    exact (Except.ok.inj hrecord).symm
  · intro heq
    rw [heq]

/-- A sort of tuples that have records. -/
theorem sort_gives_records {records : List (Record sortColumnName)}
    (h : Yields child s (records.map Record.tuple)) (hnan : ∀ r ∈ records, r.key.isNaN = false) :
    Gives (SortIterator.next std sortColumnName sortOrder child) ⟨[], 0, s⟩
      (.ok ((std.sort (less sortOrder) records).map Record.tuple)) :=
  .items (Yields.sort_records h (forall₂_record records) (strictWeakOn_less hnan))

/-- On keys that are numbers or strings, selecting and sorting commute exactly if no two of the
selected have one key. -/
theorem filter_sort_less_iff {p : Record sortColumnName → Bool} {records : List (Record sortColumnName)}
    (hnan : ∀ r ∈ records, r.key.isNaN = false) :
    (∀ std std' : StdSort, (std.sort (less sortOrder) records).filter p
        = std'.sort (less sortOrder) (records.filter p)) ↔
      ∀ a ∈ records.filter p, ∀ b ∈ records.filter p, a.key.rank = b.key.rank → a = b := by
  cases sortOrder with
  | ASCENDING => exact filter_sort_iff fun a ha b hb => Data.lt_iff_rank (hnan a ha) (hnan b hb)
  | DESCENDING =>
      have hkey : ∀ a ∈ records, ∀ b ∈ records, less .DESCENDING a b = true ↔
          OrderDual.toDual a.key.rank < OrderDual.toDual b.key.rank := by
        intro a ha b hb
        exact (Data.lt_iff_rank (hnan b hb) (hnan a ha)).trans OrderDual.toDual_lt_toDual.symm
      have hiff := filter_sort_iff (p := p) hkey
      simpa only [OrderDual.toDual_inj] using hiff

end

/-- Of two tuples neither comes before the other in a sort. -/
def SameKey (sortColumnName : Bytes) (a b : Tuple) : Prop :=
  ∀ v w, sortKey sortColumnName a = some v → sortKey sortColumnName b = some w →
    v.lt w = false ∧ w.lt v = false

theorem rank_eq_iff {c : Bytes} {a b : Record c} (ha : a.key.isNaN = false)
    (hb : b.key.isNaN = false) : a.key.rank = b.key.rank ↔ SameKey c a.tuple b.tuple := by
  have hlt : a.key.lt b.key = false ↔ ¬a.key.rank < b.key.rank := by
    rw [← Data.lt_iff_rank ha hb, Bool.not_eq_true]
  have hgt : b.key.lt a.key = false ↔ ¬b.key.rank < a.key.rank := by
    rw [← Data.lt_iff_rank hb ha, Bool.not_eq_true]
  constructor
  · intro heq v w hv hw
    obtain rfl := Option.some.inj (a.hasKey.symm.trans hv)
    obtain rfl := Option.some.inj (b.hasKey.symm.trans hw)
    rw [hlt, hgt, heq]
    exact ⟨lt_irrefl _, lt_irrefl _⟩
  · intro hsame
    obtain ⟨hab, hba⟩ := hsame _ _ a.hasKey b.hasKey
    exact le_antisymm (not_lt.mp (hgt.mp hba)) (not_lt.mp (hlt.mp hab))

/-- Selecting before sorting and selecting after it come to the same, whatever `std::sort` does
with equal keys. -/
def SelectionCommutes {σ : Type} (criteria : SelectionCriteria) (sortColumnName : Bytes)
    (sortOrder : SortOrder) (child : Pull Error σ Tuple) (s : σ) : Prop :=
  ∀ (std std' : StdSort) (r : Except Error (List Tuple)),
    Gives (SortIterator.next std sortColumnName sortOrder (SelectionIterator.next criteria child))
        ⟨[], 0, s⟩ r ↔
      Gives (SelectionIterator.next criteria (SortIterator.next std' sortColumnName sortOrder child))
        ⟨[], 0, s⟩ r

/-- Where all tuples have records, the order of equal keys is what makes the difference. -/
theorem selection_sort_records {σ : Type} {child : Pull Error σ Tuple} {s : σ} {c : Bytes}
    {sortOrder : SortOrder} {records : List (Record c)} (h : Yields child s (records.map Record.tuple))
    (hnan : ∀ r ∈ records, r.key.isNaN = false) (criteria : SelectionCriteria) :
    SelectionCommutes criteria c sortOrder child s ↔
      ∀ a ∈ (records.map Record.tuple).filter (selectionMatches criteria),
        ∀ b ∈ (records.map Record.tuple).filter (selectionMatches criteria),
          SameKey c a b → a = b := by
  let selected : Record c → Bool := fun r => selectionMatches criteria r.tuple
  have hfilter : ∀ records : List (Record c),
      (records.map Record.tuple).filter (selectionMatches criteria)
        = (records.filter selected).map Record.tuple := by
    intro records
    rw [List.filter_map]
    rfl
  have hbefore : ∀ std, Gives (SortIterator.next std c sortOrder
      (SelectionIterator.next criteria child)) ⟨[], 0, s⟩
      (.ok ((std.sort (less sortOrder) (records.filter selected)).map Record.tuple)) := by
    intro std
    have hselected := h.filterNext (p := selectionMatches criteria)
    rw [hfilter] at hselected
    exact sort_gives_records hselected fun r hr => hnan r (List.mem_filter.mp hr).1
  have hafter : ∀ std, Gives (SelectionIterator.next criteria
      (SortIterator.next std c sortOrder child)) ⟨[], 0, s⟩
      (.ok (((std.sort (less sortOrder) records).filter selected).map Record.tuple)) := by
    intro std
    have hsort : Gives (SortIterator.next std c sortOrder child) ⟨[], 0, s⟩ _ :=
      sort_gives_records h hnan
    obtain hyields | _ := hsort
    rw [← hfilter]
    exact .items hyields.filterNext
  have hlists : SelectionCommutes criteria c sortOrder child s ↔
      ∀ std' std : StdSort, (std'.sort (less sortOrder) records).filter selected
        = std.sort (less sortOrder) (records.filter selected) := by
    constructor
    · intro hall std' std
      have heq := Except.ok.inj ((hafter std').unique ((hall std std' _).mp (hbefore std)))
      exact List.map_inj_right (fun _ _ => tuple_inj.mp) |>.mp heq
    · intro hall std std'
      have hgives := hafter std'
      rw [hall std' std] at hgives
      exact (hbefore std).iff hgives
  rw [hlists, filter_sort_less_iff hnan, hfilter]
  simp only [List.forall_mem_map, tuple_inj]
  refine forall₂_congr fun a ha => forall₂_congr fun b hb => ?_
  rw [rank_eq_iff (hnan a (List.mem_filter.mp ha).1) (hnan b (List.mem_filter.mp hb).1)]

end Nyctomek.TomekDB
