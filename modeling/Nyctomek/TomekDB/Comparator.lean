/-
# `TomekDB.Comparator` — what a sort compares by, and the precondition of `std::sort`

The comparator looks for the last field of the column in either tuple and compares what it
holds.  `std::sort` promises something for a strict weak order only, and this is one up to
the NaNs: of the values of a `std::variant` the alternatives are the groups, the numbers
the keys, and a NaN is a `double` without a key.

    keys                        the comparator
    1.0, 2.0, NaN               1.0 ~ NaN ~ 2.0, but 1.0 < 2.0
    1.0, 1.0, NaN, "a", 7       a strict weak order
-/
import Nyctomek.Prog.PartialKey
import Nyctomek.TomekDB.Comparison

namespace Nyctomek.TomekDB

open Prog

/-! ## The comparator -/

/-- The comparator of two tuples; there is no value where it would read a null pointer. -/
def comparator (sortColumnName : Bytes) (sortOrder : SortOrder) (a b : Tuple) : Option Bool := do
  let fieldA ← sortKey sortColumnName a
  let fieldB ← sortKey sortColumnName b
  match sortOrder with
  | .ASCENDING => return fieldA.lt fieldB
  | .DESCENDING => return fieldB.lt fieldA

variable {c : Bytes} {sortOrder : SortOrder} {tuples : List Tuple}

theorem comparator_eq {a b : Tuple} {v w : Data} (hv : sortKey c a = some v)
    (hw : sortKey c b = some w) : comparator c sortOrder a b = some (sortOrder.before v w) := by
  rw [comparator, hv, hw]
  cases sortOrder <;> rfl

/-- The first of two of the tuples is less. -/
def ComesBefore (c : Bytes) (sortOrder : SortOrder) (tuples : List Tuple)
    (a b : {tuple // tuple ∈ tuples}) : Prop := comparator c sortOrder a.1 b.1 = some true

instance (a b : {tuple // tuple ∈ tuples}) : Decidable (ComesBefore c sortOrder tuples a b) :=
  inferInstanceAs (Decidable (comparator c sortOrder a.1 b.1 = some true))

/-- What `std::sort` asks of the comparator on the tuples that it sorts: it is irreflexive,
asymmetric and transitive, and transitive is also that neither of two is less. -/
def MeetsPrecondition (c : Bytes) (sortOrder : SortOrder) (tuples : List Tuple) : Prop :=
  Std.Asymm (ComesBefore c sortOrder tuples) ∧
    IsStrictWeakOrder {tuple // tuple ∈ tuples} (ComesBefore c sortOrder tuples)

/-- Where a sort key is NaN, there is but one number among those that are `double`s. -/
def OneNumberBesideNaN (c : Bytes) (tuples : List Tuple) : Prop :=
  ∀ tuple ∈ tuples, ∀ nan, sortKey c tuple = some (.double nan) → nan.isNaN = true →
    ∀ a ∈ tuples, ∀ d, sortKey c a = some (.double d) → d.isNaN = false →
      ∀ b ∈ tuples, ∀ e, sortKey c b = some (.double e) → e.isNaN = false →
        d.position = e.position

/-! ## The order of the values -/

/-- The place of a value among those of its alternative; a NaN has none. -/
def Data.place : Data → Option (Int ×ₗ Bytes)
  | int i => some (toLex (i.toInt, []))
  | double d => if d.isNaN then none else some (toLex (d.position, []))
  | string s => some (toLex (0, s))

theorem Data.lt_iff_keyLt (v w : Data) : v.lt w = true ↔ KeyLt Data.index Data.place v w := by
  cases v with
  | int i =>
      cases w with
      | int j => simp [lt, KeyLt, index, place, Prod.Lex.lt_iff]
      | double e => simp [lt, KeyLt, index]
      | string t => simp [lt, KeyLt, index]
  | double d =>
      cases w with
      | int j => simp [lt, KeyLt, index]
      | double e =>
          cases hd : d.isNaN with
          | true => simp [lt, KeyLt, index, place, Double.lt, hd]
          | false =>
              cases he : e.isNaN with
              | true => simp [lt, KeyLt, index, place, Double.lt, he]
              | false => simp [lt, KeyLt, index, place, Double.lt, hd, he, Prod.Lex.lt_iff]
      | string t => simp [lt, KeyLt, index]
  | string s =>
      cases w with
      | int j => simp [lt, KeyLt, index]
      | double e => simp [lt, KeyLt, index]
      | string t => simp [lt, KeyLt, index, place, Prod.Lex.lt_iff]

theorem Data.place_eq_none {v : Data} (h : v.place = none) :
    ∃ d, v = .double d ∧ d.isNaN = true := by
  cases v with
  | int i => cases h
  | double d =>
      refine ⟨d, rfl, ?_⟩
      by_contra hnot
      rw [place, if_neg hnot] at h
      cases h
  | string s => cases h

/-- A value of the same alternative as a NaN that has a place is a number. -/
theorem Data.mem_place {v : Data} {d : Double} {x : Int ×ₗ Bytes} (hx : x ∈ v.place)
    (hindex : v.index = (Data.double d).index) :
    ∃ e, v = .double e ∧ e.isNaN = false ∧ x = toLex (e.position, []) := by
  cases v with
  | int i => cases hindex
  | double e =>
      cases he : e.isNaN with
      | true =>
          rw [place, if_pos he] at hx
          cases hx
      | false =>
          rw [place, if_neg (by rw [he]; exact Bool.false_ne_true)] at hx
          exact ⟨e, rfl, he, (Option.some.inj hx).symm⟩
  | string s => cases hindex

/-- **What compares by values** is a strict weak order if and only if a NaN among them leaves
room for one number only. -/
theorem isStrictWeakOrder_before {α : Type} (key : α → Data) :
    IsStrictWeakOrder α (fun a b => sortOrder.before (key a) (key b) = true) ↔
      ∀ a₀ nan, key a₀ = .double nan → nan.isNaN = true →
        ∀ a d, key a = .double d → d.isNaN = false →
          ∀ b e, key b = .double e → e.isNaN = false → d.position = e.position := by
  have hlt : IsStrictWeakOrder α (fun a b => sortOrder.before (key a) (key b) = true) ↔
      IsStrictWeakOrder α (KeyLt (fun a => (key a).index) fun a => (key a).place) := by
    cases sortOrder with
    | ASCENDING =>
        have hsame : (fun a b => (key a).lt (key b) = true) =
            KeyLt (fun a => (key a).index) fun a => (key a).place :=
          funext₂ fun a b => propext (Data.lt_iff_keyLt (key a) (key b))
        rw [← hsame]
        rfl
    | DESCENDING =>
        have hsame : (fun a b => (key b).lt (key a) = true) =
            Function.swap (KeyLt (fun a => (key a).index) fun a => (key a).place) :=
          funext₂ fun a b => propext (Data.lt_iff_keyLt (key b) (key a))
        rw [← isStrictWeakOrder_swap (r := KeyLt _ _), ← hsame]
        rfl
  rw [hlt, KeyLt.isStrictWeakOrder_iff]
  constructor
  · intro hone a₀ nan hnan hisNaN a d hd hdn b e he hen
    have hplace : (key a₀).place = none := by
      rw [hnan, Data.place, if_pos hisNaN]
    have hmem : ∀ {b : α} {e : Double}, key b = .double e → e.isNaN = false →
        toLex (e.position, []) ∈ (key b).place := by
      intro b e he hen
      rw [he, Data.place, if_neg (by rw [hen]; exact Bool.false_ne_true)]
      rfl
    have hindex : ∀ {b : α} {e : Double}, key b = .double e → (key b).index = (key a₀).index := by
      intro b e he
      rw [he, hnan]
      rfl
    have hsame := hone a₀ hplace a (hindex hd) b (hindex he) _ (hmem hd hdn) _ (hmem he hen)
    exact congrArg (fun x => (ofLex x).1) hsame
  · intro hone a₀ hplace a ha b hb x hx z hz
    obtain ⟨nan, hnan, hisNaN⟩ := Data.place_eq_none hplace
    rw [hnan] at ha hb
    obtain ⟨d, hd, hdn, rfl⟩ := Data.mem_place hx ha
    obtain ⟨e, he, hen, rfl⟩ := Data.mem_place hz hb
    rw [hone a₀ nan hnan hisNaN a d hd hdn b e he hen]

/-! ## The tuples of a sort -/

/-- The precondition for tuples, given in any way together with their keys. -/
theorem isStrictWeakOrder_before_iff {α : Type} {tuple : α → Tuple} {key : α → Data}
    (hmem : ∀ t, t ∈ tuples ↔ ∃ a, tuple a = t) (hkey : ∀ a, sortKey c (tuple a) = some (key a)) :
    IsStrictWeakOrder α (fun a b => sortOrder.before (key a) (key b) = true) ↔
      OneNumberBesideNaN c tuples := by
  have hsome : ∀ {a : α} {v : Data}, key a = v ↔ sortKey c (tuple a) = some v := by
    intro a v
    rw [hkey a, Option.some.injEq]
  rw [isStrictWeakOrder_before]
  constructor
  · intro hone t₀ h₀ nan hnan hisNaN t ht d hd hdn t' ht' e he
    obtain ⟨a₀, rfl⟩ := (hmem t₀).mp h₀
    obtain ⟨a, rfl⟩ := (hmem t).mp ht
    obtain ⟨b, rfl⟩ := (hmem t').mp ht'
    exact hone a₀ nan (hsome.mpr hnan) hisNaN a d (hsome.mpr hd) hdn b e (hsome.mpr he)
  · intro hone a₀ nan hnan hisNaN a d hd hdn b e he
    exact hone _ ((hmem _).mpr ⟨a₀, rfl⟩) nan (hsome.mp hnan) hisNaN
      _ ((hmem _).mpr ⟨a, rfl⟩) d (hsome.mp hd) hdn _ ((hmem _).mpr ⟨b, rfl⟩) e (hsome.mp he)

/-- **The comparator meets the precondition of `std::sort`**, on any tuples that have the
column and in either order, if and only if a NaN among their sort keys leaves room for one
number only. -/
theorem meetsPrecondition_iff (sortOrder : SortOrder)
    (hcolumn : ∀ tuple ∈ tuples, ∃ field ∈ tuple.fields, field.name = c) :
    MeetsPrecondition c sortOrder tuples ↔ OneNumberBesideNaN c tuples := by
  have hsome : ∀ a : {tuple // tuple ∈ tuples}, ∃ v, sortKey c a.1 = some v := by
    rintro ⟨tuple, htuple⟩
    obtain ⟨field, -, -, hkey⟩ := exists_sortKey (hcolumn tuple htuple)
    exact ⟨field.data, hkey⟩
  choose key hkey using hsome
  have hbefore : ComesBefore c sortOrder tuples
      = fun a b => sortOrder.before (key a) (key b) = true := by
    funext a b
    rw [ComesBefore, comparator_eq (hkey a) (hkey b), Option.some.injEq]
  have hasymm : MeetsPrecondition c sortOrder tuples ↔
      IsStrictWeakOrder {tuple // tuple ∈ tuples} (ComesBefore c sortOrder tuples) :=
    ⟨And.right, fun hweak => ⟨inferInstance, hweak⟩⟩
  rw [hasymm, hbefore]
  refine isStrictWeakOrder_before_iff ?_ hkey
  intro tuple
  exact ⟨fun h => ⟨⟨tuple, h⟩, rfl⟩, fun ⟨a, ha⟩ => ha ▸ a.2⟩

/-- Two columns of the name, of which the first is not compared, beside a NaN. -/
theorem meetsPrecondition_one :
    MeetsPrecondition [107] .DESCENDING
        [⟨[⟨[107], .int 7⟩, ⟨[107], .double 0x3FF0000000000000⟩]⟩,
          ⟨[⟨[107], .double 0x7FF8000000000000⟩]⟩, ⟨[⟨[107], .string [97]⟩]⟩]
      ↔ OneNumberBesideNaN [107]
        [⟨[⟨[107], .int 7⟩, ⟨[107], .double 0x3FF0000000000000⟩]⟩,
          ⟨[⟨[107], .double 0x7FF8000000000000⟩]⟩, ⟨[⟨[107], .string [97]⟩]⟩] :=
  meetsPrecondition_iff .DESCENDING (by simp)

/-- One is not less than NaN and NaN not less than two, nor the other way round; but one is
less than two. -/
theorem not_meetsPrecondition_nan :
    ¬MeetsPrecondition [107] .ASCENDING [⟨[⟨[107], .double 0x3FF0000000000000⟩]⟩,
      ⟨[⟨[107], .double 0x7FF8000000000000⟩]⟩, ⟨[⟨[107], .double 0x4000000000000000⟩]⟩] := by
  rintro ⟨-, hweak⟩
  have htrans := hweak.incomp_trans ⟨_, .head _⟩ ⟨_, .tail _ (.head _)⟩
    ⟨_, .tail _ (.tail _ (.head _))⟩
  exact (htrans (by decide) (by decide)).1 (by decide)

/-! ## Sorts that have NaNs among their keys -/

theorem strictWeakOn_less_iff {records : List (Record c)} :
    StrictWeakOn (less sortOrder) records ↔ OneNumberBesideNaN c (records.map Record.tuple) := by
  rw [strictWeakOn_iff]
  simp only [less_eq_before]
  refine isStrictWeakOrder_before_iff (α := {r // r ∈ records}) ?_ fun r => r.1.hasKey
  intro tuple
  rw [List.mem_map]
  exact ⟨fun ⟨r, hr, h⟩ => ⟨⟨r, hr⟩, h⟩, fun ⟨r, h⟩ => ⟨r.1, r.2, h⟩⟩

variable {std : StdSort} {σ : Type} {child : Pull Error σ Tuple} {s : σ}

/-- **A sort** does what it is for also with NaNs, where they leave room for one number only. -/
theorem Yields.sort_of_oneNumber (h : Yields child s tuples)
    (hcolumn : ∀ tuple ∈ tuples, ∃ field ∈ tuple.fields, field.name = c)
    (hone : OneNumberBesideNaN c tuples) :
    ∃ out, Yields (SortIterator.next std c sortOrder child) ⟨[], 0, s⟩ out ∧ out.Perm tuples ∧
      SortedByColumn c sortOrder out := by
  obtain ⟨records, hrecords, hmap⟩ := exists_records_of_column hcolumn
  rw [← hmap] at hone
  exact Yields.sort_of_strictWeakOn h hrecords hmap (strictWeakOn_less_iff.mpr hone)

end Nyctomek.TomekDB
