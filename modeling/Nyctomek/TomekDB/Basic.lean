/-
# `TomekDB.Basic` — the query operators of `tomekdb`

Every operator is an iterator whose `next` asks the operator below it; a query is a
chain of them over a scan.  The state of a chain is that of its operators, each with
that of the one below inside.

    ScanIterator          d_currentTuple, what is left of the list
    SelectionIterator     nothing of its own
    LimitIterator         d_limit
    SortIterator          d_tuples, d_currentRecord
    ProjectionIterator    nothing of its own

A `double` is given by its 64 bits, ordered as IEEE 754 has it; a `std::variant` by the
alternative it holds first, and then by the value.
-/
import Mathlib.Algebra.Group.Nat.Defs
import Nyctomek.Prog.Bytes
import Nyctomek.Prog.Pull
import Nyctomek.Prog.StdSort

namespace Nyctomek.TomekDB

open Prog

/-! ## Values -/

/-- The bits of a `double`. -/
abbrev Double := UInt64

namespace Double

/-- All bits but the sign. -/
def magnitude (d : Double) : Nat := d.toNat % 2 ^ 63

def isNaN (d : Double) : Bool := 0x7FF0000000000000 < d.magnitude

/-- The position of a number in the order; both zeros have the same. -/
def position (d : Double) : Int := if d.toNat < 2 ^ 63 then d.magnitude else -d.magnitude

def eq (d e : Double) : Bool := !isNaN d && !isNaN e && position d = position e

def lt (d e : Double) : Bool := !isNaN d && !isNaN e && position d < position e

end Double

/-- `std::variant<int, double, std::string>`. -/
inductive Data where
  | int (i : Int32)
  | double (d : Double)
  | string (s : Bytes)
  deriving DecidableEq, Repr

namespace Data

def index : Data → Nat
  | int _ => 0
  | double _ => 1
  | string _ => 2

/-- `v == w`. -/
def eq : Data → Data → Bool
  | int i, int j => i == j
  | double d, double e => d.eq e
  | string s, string t => s == t
  | _, _ => false

/-- `v < w`. -/
def lt (v w : Data) : Bool :=
  match v, w with
  | int i, int j => i.toInt < j.toInt
  | double d, double e => d.lt e
  | string s, string t => s < t
  | v, w => v.index < w.index

end Data

structure Field where
  name : Bytes
  data : Data
  deriving DecidableEq, Repr

structure Tuple where
  fields : List Field
  deriving DecidableEq, Repr

/-- What an operator throws: a tuple without the sort key. -/
inductive Error where
  | sortKeyMissing (sortColumnName : Bytes) (record : Tuple)
  deriving DecidableEq, Repr

/-! ## Selection -/

inductive ComparisonOperator where
  | EQUALS
  | NOT_EQUAL
  | GREATER_THAN
  | LESS_THAN
  deriving DecidableEq, Repr

structure SelectionCriteria where
  fieldName : Bytes
  fieldValue : Data
  comparisonOperator : ComparisonOperator
  deriving DecidableEq, Repr

/-- `selectionMatches`: the first field of the name decides. -/
def selectionMatches (criteria : SelectionCriteria) (tuple : Tuple) : Bool :=
  match tuple.fields.find? (·.name = criteria.fieldName) with
  | some field =>
      match criteria.comparisonOperator with
      | .EQUALS => field.data.eq criteria.fieldValue
      | .NOT_EQUAL => !field.data.eq criteria.fieldValue
      | .GREATER_THAN => criteria.fieldValue.lt field.data
      | .LESS_THAN => field.data.lt criteria.fieldValue
  | none => false

variable {σ : Type}

def SelectionIterator.next (criteria : SelectionCriteria) (child : Pull Error σ Tuple) :
    Pull Error σ Tuple :=
  filterNext (selectionMatches criteria) child

/-! ## Limit and projection -/

/-- The state is `d_limit`, and that of the child. -/
def LimitIterator.next (child : Pull Error σ Tuple) : Pull Error (Nat × σ) Tuple := takeNext child

/-- The fields of each name, name after name. -/
def projectedFields (fieldNames : List Bytes) (tuple : Tuple) : List Field :=
  fieldNames.flatMap fun name => tuple.fields.filter (·.name = name)

def project (fieldNames : List Bytes) (tuple : Tuple) : Option Tuple :=
  if (projectedFields fieldNames tuple).length ≠ 0 then some ⟨projectedFields fieldNames tuple⟩
  else none

def ProjectionIterator.next (fieldNames : List Bytes) (child : Pull Error σ Tuple) :
    Pull Error σ Tuple :=
  mapNext (project fieldNames) child

/-! ## Sort -/

inductive SortOrder where
  | ASCENDING
  | DESCENDING
  deriving DecidableEq, Repr

/-- What a tuple is compared by: the last field of the name. -/
def sortKey (sortColumnName : Bytes) (tuple : Tuple) : Option Data :=
  tuple.fields.foldl (fun key field => if field.name = sortColumnName then some field.data else key)
    none

/-- A tuple with the sort key. -/
structure Record (sortColumnName : Bytes) where
  tuple : Tuple
  key : Data
  hasKey : sortKey sortColumnName tuple = some key

/-- Throws if there is no sort key. -/
def record (sortColumnName : Bytes) (tuple : Tuple) : Except Error (Record sortColumnName) :=
  match h : sortKey sortColumnName tuple with
  | some key => .ok ⟨tuple, key, h⟩
  | none => .error (.sortKeyMissing sortColumnName tuple)

/-- The comparator. -/
def less {sortColumnName : Bytes} (sortOrder : SortOrder) (a b : Record sortColumnName) : Bool :=
  match sortOrder with
  | .ASCENDING => a.key.lt b.key
  | .DESCENDING => b.key.lt a.key

structure SortState (sortColumnName : Bytes) (σ : Type) where
  d_tuples : List (Record sortColumnName)
  /-- The position of the iterator `d_currentRecord`. -/
  d_currentRecord : Nat
  child : σ

/-- `*d_currentRecord++`, before the end. -/
def SortState.current {sortColumnName : Bytes} (s : SortState sortColumnName σ) :
    Option Tuple × SortState sortColumnName σ :=
  match s.d_tuples[s.d_currentRecord]? with
  | some r => (some r.tuple, { s with d_currentRecord := s.d_currentRecord + 1 })
  | none => (none, s)

def SortIterator.next (std : StdSort) (sortColumnName : Bytes) (sortOrder : SortOrder)
    (child : Pull Error σ Tuple) : Pull Error (SortState sortColumnName σ) Tuple := fun fuel s =>
  if s.d_tuples.length = 0 then do
    let (d_tuples, rest) ← collect (record sortColumnName) child fuel s.child
    if d_tuples.length = 0 then return (none, { s with d_tuples, child := rest })
    return SortState.current ⟨std.sort (less sortOrder) d_tuples, 0, rest⟩
  else return s.current

/-! ## Queries -/

inductive Operator where
  | selection (criteria : SelectionCriteria)
  | limit (limit : Nat)
  | sort (sortColumnName : Bytes) (sortOrder : SortOrder)
  | projection (fieldNames : List Bytes)
  deriving DecidableEq, Repr

/-- The operators over a scan, the top one first. -/
abbrev Query := List Operator

/-- The state of a query. -/
def Query.State : Query → Type
  | [] => List Tuple
  | .selection _ :: query => Query.State query
  | .limit _ :: query => Nat × Query.State query
  | .sort sortColumnName _ :: query => SortState sortColumnName (Query.State query)
  | .projection _ :: query => Query.State query

/-- `next()` of the top operator. -/
def Query.next (std : StdSort) : (query : Query) → Pull Error (Query.State query) Tuple
  | [] => listNext
  | .selection criteria :: query => SelectionIterator.next criteria (Query.next std query)
  | .limit _ :: query => LimitIterator.next (Query.next std query)
  | .sort sortColumnName sortOrder :: query =>
      SortIterator.next std sortColumnName sortOrder (Query.next std query)
  | .projection fieldNames :: query => ProjectionIterator.next fieldNames (Query.next std query)

/-- The operators as they are constructed, over a scan of `tuples`. -/
def Query.start (tuples : List Tuple) : (query : Query) → Query.State query
  | [] => tuples
  | .selection _ :: query => Query.start tuples query
  | .limit limit :: query => (limit, Query.start tuples query)
  | .sort _ _ :: query => ⟨[], 0, Query.start tuples query⟩
  | .projection _ :: query => Query.start tuples query

/-- Asking the top operator until it returns `nullopt`. -/
def Query.results (std : StdSort) (query : Query) (tuples : List Tuple) (fuel : Nat) :
    Exec Error (List Tuple) := do
  let (tuples, _) ← collect .ok (Query.next std query) fuel (Query.start tuples query)
  return tuples

end Nyctomek.TomekDB
