/-
# `TomekDB.Numbers` — selections by a number

A finite `double` is a multiple of the smallest positive one; the multiples are ordered as
the bits are, so that comparing doubles is comparing numbers (`lt_eq_value`).  Between an
`int` and a `double` the alternative decides, whatever the numbers:

                 an int           a double
    int m          q op m           greater than m
    double m       less than m      q op m

`selection_number` says what this makes of a selection.
-/
import Mathlib.Algebra.Order.Field.Rat
import Mathlib.Data.Int.ConditionallyCompleteOrder
import Mathlib.Tactic.Positivity
import Nyctomek.TomekDB.Comparison

namespace Nyctomek.TomekDB

open Prog

/-! ## Finite doubles -/

namespace Double

/-- Neither infinite nor a NaN. -/
def isFinite (d : Double) : Bool := d.magnitude < 0x7FF0000000000000

/-- The smallest positive number. -/
def smallest : ℚ := 1 / 2 ^ 1074

/-- How often it is in a number: the fraction, or the significand shifted by the exponent. -/
def units (magnitude : Nat) : Nat :=
  if magnitude / 2 ^ 52 = 0 then magnitude % 2 ^ 52
  else (2 ^ 52 + magnitude % 2 ^ 52) * 2 ^ (magnitude / 2 ^ 52 - 1)

def signedUnits : Int → Int
  | .ofNat magnitude => units magnitude
  | .negSucc magnitude => -units (magnitude + 1)

/-- The number that a finite `double` is, exactly. -/
def value (d : Double) : ℚ := signedUnits d.position * smallest

theorem units_strictMono : StrictMono units := by
  refine strictMono_nat_of_lt_succ ?_
  intro n
  have hpos : 0 < 2 ^ (n / 2 ^ 52 - 1) := Nat.two_pow_pos _
  by_cases hcarry : n % 2 ^ 52 + 1 < 2 ^ 52
  · have hexponent : (n + 1) / 2 ^ 52 = n / 2 ^ 52 := by omega
    have hfraction : (n + 1) % 2 ^ 52 = n % 2 ^ 52 + 1 := by omega
    rw [units, units, hexponent, hfraction]
    split
    · exact Nat.lt_succ_self _
    · exact Nat.mul_lt_mul_of_pos_right (by omega) hpos
  · -- the fraction is full, and the exponent goes up
    have hexponent : (n + 1) / 2 ^ 52 = n / 2 ^ 52 + 1 := by omega
    have hfraction : (n + 1) % 2 ^ 52 = 0 := by omega
    rw [units, units, hexponent, hfraction, if_neg (Nat.succ_ne_zero _), Nat.add_sub_cancel]
    split
    · rename_i hzero
      rw [hzero]
      omega
    · rename_i hne
      obtain ⟨e, he⟩ := Nat.exists_eq_succ_of_ne_zero hne
      have hshift : (2 ^ 52 + 0) * 2 ^ e.succ = (2 ^ 52 * 2) * 2 ^ e := by
        have hsucc : 2 ^ e.succ = 2 ^ e * 2 := Nat.pow_succ 2 e
        omega
      rw [he, Nat.succ_sub_one, hshift]
      exact Nat.mul_lt_mul_of_pos_right (by omega) (Nat.two_pow_pos e)

theorem signedUnits_strictMono : StrictMono signedUnits := by
  refine strictMono_int_of_lt_succ ?_
  intro n
  cases n with
  | ofNat n =>
      show ((units n : Nat) : Int) < (units (n + 1) : Nat)
      exact Int.ofNat_lt.mpr (units_strictMono (Nat.lt_succ_self n))
  | negSucc n =>
      have hlt : units n < units (n + 1) := units_strictMono (Nat.lt_succ_self n)
      cases n with
      | zero =>
          show -((units (0 + 1) : Nat) : Int) < (units 0 : Nat)
          omega
      | succ n =>
          show -((units (n + 1 + 1) : Nat) : Int) < -(units (n + 1) : Nat)
          omega

theorem smallest_pos : 0 < smallest := by
  rw [smallest]
  positivity

theorem units_smallest : ((2 ^ 1074 : Nat) : ℚ) * smallest = 1 := by
  rw [smallest, Nat.cast_pow, Nat.cast_ofNat]
  exact mul_one_div_cancel (by positivity)

theorem value_lt_value {d e : Double} : d.value < e.value ↔ d.position < e.position := by
  rw [value, value, mul_lt_mul_iff_of_pos_right smallest_pos, Int.cast_lt,
    signedUnits_strictMono.lt_iff_lt]

theorem value_inj {d e : Double} : d.value = e.value ↔ d.position = e.position := by
  rw [value, value, mul_left_inj' smallest_pos.ne', Int.cast_inj,
    signedUnits_strictMono.injective.eq_iff]

theorem not_isNaN {d : Double} (h : d.isFinite = true) : d.isNaN = false := by
  rw [isFinite, decide_eq_true_iff] at h
  exact decide_eq_false (by omega)

/-- **Finite doubles** are ordered as the numbers that they are. -/
theorem lt_eq_value {d e : Double} (hd : d.isFinite = true) (he : e.isFinite = true) :
    d.lt e = decide (d.value < e.value) := by
  rw [lt, not_isNaN hd, not_isNaN he, decide_eq_decide.mpr value_lt_value]
  rfl

theorem eq_eq_value {d e : Double} (hd : d.isFinite = true) (he : e.isFinite = true) :
    d.eq e = decide (d.value = e.value) := by
  rw [eq, not_isNaN hd, not_isNaN he, decide_eq_decide.mpr value_inj]
  rfl

end Double

/-! ## Selections by a number -/

variable {c : Bytes} {σ : Type} {child : Pull Error σ Tuple} {s : σ} {tuples : List Tuple}

/-- The number that a value is. -/
def Data.number : Data → Option ℚ
  | int i => some i.toInt
  | double d => if d.isFinite then some d.value else none
  | string _ => none

namespace ComparisonOperator

/-- `q op m`. -/
def compares (comparisonOperator : ComparisonOperator) (q m : ℚ) : Bool :=
  match comparisonOperator with
  | EQUALS => q = m
  | NOT_EQUAL => q ≠ m
  | GREATER_THAN => m < q
  | LESS_THAN => q < m

/-- What a criterion with an `int` accepts: to it all else is greater. -/
def comparesInt (comparisonOperator : ComparisonOperator) (m : ℚ) : Data → Bool
  | .int i => comparisonOperator.compares i.toInt m
  | _ => comparisonOperator = NOT_EQUAL ∨ comparisonOperator = GREATER_THAN

/-- What a criterion with a `double` accepts: to it every `int` is less. -/
def comparesDouble (comparisonOperator : ComparisonOperator) (m : ℚ) : Data → Bool
  | .int _ => comparisonOperator = NOT_EQUAL ∨ comparisonOperator = LESS_THAN
  | .double d => comparisonOperator.compares d.value m
  | .string _ => comparisonOperator = NOT_EQUAL ∨ comparisonOperator = GREATER_THAN

theorem holds_int (comparisonOperator : ComparisonOperator) (i : Int32) (data : Data) :
    comparisonOperator.holds data (.int i) = comparisonOperator.comparesInt i.toInt data := by
  cases data with
  | int j =>
      have heq : (j == i) = decide (j.toInt = i.toInt) := by
        rw [beq_eq_decide, decide_eq_decide, Int32.toInt_inj]
      cases comparisonOperator <;> simp [holds, comparesInt, compares, Data.eq, Data.lt, heq]
  | double e => cases comparisonOperator <;> rfl
  | string t => cases comparisonOperator <;> rfl

theorem holds_double (comparisonOperator : ComparisonOperator) {d : Double} (hd : d.isFinite = true)
    {data : Data} (hdata : ∀ e, data = .double e → e.isFinite = true) :
    comparisonOperator.holds data (.double d) = comparisonOperator.comparesDouble d.value data := by
  cases data with
  | int j => cases comparisonOperator <;> rfl
  | double e =>
      have he := hdata e rfl
      cases comparisonOperator <;> simp [holds, comparesDouble, compares, Data.eq, Data.lt,
        Double.eq_eq_value, Double.lt_eq_value, hd, he]
  | string t => cases comparisonOperator <;> rfl

/-- Where both accept a value if its number compares with `m`. -/
def Agree (comparisonOperator : ComparisonOperator) (m : ℚ) : Data → Prop
  | .int i =>
      match comparisonOperator with
      | EQUALS => (i.toInt : ℚ) ≠ m
      | NOT_EQUAL => (i.toInt : ℚ) ≠ m
      | GREATER_THAN => (i.toInt : ℚ) ≤ m
      | LESS_THAN => (i.toInt : ℚ) < m
  | .double d =>
      match comparisonOperator with
      | EQUALS => d.value ≠ m
      | NOT_EQUAL => d.value ≠ m
      | GREATER_THAN => m < d.value
      | LESS_THAN => m ≤ d.value
  | .string _ => True

theorem both_iff_agree (comparisonOperator : ComparisonOperator) (m : ℚ) {data : Data} {q : ℚ}
    (hq : data.number = some q) :
    comparisonOperator.comparesInt m data = comparisonOperator.compares q m ∧
        comparisonOperator.comparesDouble m data = comparisonOperator.compares q m
      ↔ comparisonOperator.Agree m data := by
  cases data with
  | int i =>
      obtain rfl := Option.some.inj hq
      cases comparisonOperator <;> simp [comparesInt, comparesDouble, compares, Agree]
  | double d =>
      rw [Data.number] at hq
      split at hq
      · obtain rfl := Option.some.inj hq
        cases comparisonOperator <;> simp [comparesInt, comparesDouble, compares, Agree]
      · cases hq
  | string t => cases hq

end ComparisonOperator

/-- The tuples whose first field of the name has a value that is accepted. -/
def accepted (c : Bytes) (accepts : Data → Bool) (tuples : List Tuple) : List Tuple :=
  tuples.filter fun tuple => (firstValue c tuple).any accepts

theorem accepted_eq_iff {accepts accepts' : Data → Bool} :
    accepted c accepts tuples = accepted c accepts' tuples
      ↔ ∀ tuple ∈ tuples, ∀ data, firstValue c tuple = some data → accepts data = accepts' data := by
  rw [accepted, accepted]
  constructor
  · intro heq tuple htuple data hdata
    have hmem : tuple ∈ tuples.filter (fun tuple => (firstValue c tuple).any accepts) ↔
        tuple ∈ tuples.filter (fun tuple => (firstValue c tuple).any accepts') := by
      rw [heq]
    simp only [List.mem_filter, htuple, true_and, hdata, Option.any_some] at hmem
    exact Bool.eq_iff_iff.mpr hmem
  · intro heq
    refine List.filter_congr ?_
    intro tuple htuple
    cases hdata : firstValue c tuple with
    | none => rfl
    | some data => exact heq tuple htuple data hdata

theorem Yields.accepted {criteria : SelectionCriteria} (h : Yields child s tuples)
    {accepts : Data → Bool} (haccepts : ∀ tuple ∈ tuples, ∀ data,
      firstValue criteria.fieldName tuple = some data →
      criteria.comparisonOperator.holds data criteria.fieldValue = accepts data) :
    Yields (SelectionIterator.next criteria child) s
      (TomekDB.accepted criteria.fieldName accepts tuples) := by
  rw [← accepted_eq_iff.mpr haccepts, TomekDB.accepted, ← funext (selectionMatches_eq criteria)]
  exact h.filterNext

/-- **A number** is compared with the values of its own alternative as numbers are, and all
others it is below or above; where this does not matter the alternative of the criterion does not,
either. -/
theorem selection_number (h : Yields child s tuples)
    (hnumber : ∀ tuple ∈ tuples, ∃ data q, firstValue c tuple = some data ∧ data.number = some q)
    (comparisonOperator : ComparisonOperator) {i : Int32} {d : Double} (hd : d.isFinite = true)
    (hi : d.value = i.toInt) :
    Yields (SelectionIterator.next ⟨c, .int i, comparisonOperator⟩ child) s
        (accepted c (comparisonOperator.comparesInt i.toInt) tuples) ∧
      Yields (SelectionIterator.next ⟨c, .double d, comparisonOperator⟩ child) s
        (accepted c (comparisonOperator.comparesDouble i.toInt) tuples) ∧
      ((∀ value ∈ [Data.int i, Data.double d],
        Yields (SelectionIterator.next ⟨c, value, comparisonOperator⟩ child) s
          (accepted c (fun data => data.number.any (comparisonOperator.compares · i.toInt)) tuples))
        ↔ ∀ tuple ∈ tuples, ∀ data, firstValue c tuple = some data →
            comparisonOperator.Agree i.toInt data) := by
  have hfinite : ∀ tuple ∈ tuples, ∀ data, firstValue c tuple = some data →
      ∀ e, data = .double e → e.isFinite = true := by
    rintro tuple htuple data hdata e rfl
    obtain ⟨data', q, hdata', hq⟩ := hnumber tuple htuple
    obtain rfl := Option.some.inj (hdata.symm.trans hdata')
    rw [Data.number] at hq
    split at hq
    · assumption
    · cases hq
  have hint : Yields (SelectionIterator.next ⟨c, .int i, comparisonOperator⟩ child) s
      (accepted c (comparisonOperator.comparesInt i.toInt) tuples) :=
    Yields.accepted h fun _ _ data _ => comparisonOperator.holds_int i data
  have hdouble : Yields (SelectionIterator.next ⟨c, .double d, comparisonOperator⟩ child) s
      (accepted c (comparisonOperator.comparesDouble i.toInt) tuples) := by
    rw [← hi]
    exact Yields.accepted h fun tuple htuple data hdata =>
      comparisonOperator.holds_double hd (hfinite tuple htuple data hdata)
  refine ⟨hint, hdouble, ?_⟩
  have hagree : ∀ tuple ∈ tuples, ∀ data, firstValue c tuple = some data →
      (comparisonOperator.comparesInt i.toInt data
            = data.number.any (comparisonOperator.compares · i.toInt) ∧
          comparisonOperator.comparesDouble i.toInt data
            = data.number.any (comparisonOperator.compares · i.toInt)
        ↔ comparisonOperator.Agree i.toInt data) := by
    intro tuple htuple data hdata
    obtain ⟨data', q, hdata', hq⟩ := hnumber tuple htuple
    obtain rfl := Option.some.inj (hdata.symm.trans hdata')
    rw [← comparisonOperator.both_iff_agree i.toInt hq, hq]
    rfl
  constructor
  · intro hyields tuple htuple data hdata
    have hsameInt := hint.unique (hyields _ List.mem_cons_self)
    have hsameDouble := hdouble.unique (hyields _ (List.mem_cons_of_mem _ List.mem_cons_self))
    exact (hagree tuple htuple data hdata).mp ⟨accepted_eq_iff.mp hsameInt tuple htuple data hdata,
      accepted_eq_iff.mp hsameDouble tuple htuple data hdata⟩
  · intro hall
    have hboth := fun tuple htuple data hdata =>
      (hagree tuple htuple data hdata).mpr (hall tuple htuple data hdata)
    intro value hvalue
    rcases List.mem_pair.mp hvalue with rfl | rfl
    · rw [← accepted_eq_iff.mpr fun tuple htuple data hdata => (hboth tuple htuple data hdata).1]
      exact hint
    · rw [← accepted_eq_iff.mpr fun tuple htuple data hdata => (hboth tuple htuple data hdata).2]
      exact hdouble

/-- The bits of 1.0. -/
theorem selection_number_one :
    Yields (SelectionIterator.next ⟨[99], .int 1, .LESS_THAN⟩ listNext)
        [⟨[⟨[99], .int 0⟩]⟩, ⟨[⟨[99], .double 0⟩]⟩]
        (accepted [99] (ComparisonOperator.LESS_THAN.comparesInt (1 : Int32).toInt)
          [⟨[⟨[99], .int 0⟩]⟩, ⟨[⟨[99], .double 0⟩]⟩]) := by
  have hone : Double.value 0x3FF0000000000000 = ((1 : Int32).toInt : ℚ) := by
    have hunits : Double.signedUnits (Double.position 0x3FF0000000000000) = (2 ^ 1074 : Nat) := by
      decide +kernel
    rw [Double.value, hunits, Int.cast_natCast, Double.units_smallest]
    rfl
  refine (selection_number (yields_listNext _) ?_ .LESS_THAN rfl hone).1
  intro tuple htuple
  rcases List.mem_pair.mp htuple with rfl | rfl
  · exact ⟨.int 0, _, rfl, rfl⟩
  · exact ⟨.double 0, _, rfl, rfl⟩

/-- The `int` 1 and the `double` 1.0 for a field that is 1.0. -/
theorem not_same_selection :
    ¬∃ out, ∀ value ∈ [Data.int 1, Data.double 0x3FF0000000000000],
      Yields (SelectionIterator.next ⟨[99], value, .EQUALS⟩ listNext)
        [⟨[⟨[99], .double 0x3FF0000000000000⟩]⟩] out := by
  rintro ⟨out, hout⟩
  obtain rfl := (hout _ List.mem_cons_self).unique (yields_listNext _).filterNext
  have hsame := (hout _ (List.mem_cons_of_mem _ List.mem_cons_self)).unique
    (yields_listNext _).filterNext
  exact absurd hsame (by decide)

end Nyctomek.TomekDB
