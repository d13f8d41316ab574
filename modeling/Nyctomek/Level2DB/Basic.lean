/-
# `Level2DB.Basic` — the database and its range iterator

`Database` keeps its pairs in a `std::map` or in a skip list, as its constructor
was told; the other container stays empty.  `Get`, `Has`, `Put` and `Delete`
choose by `m_useSkipList`, `RangeScan` looks only at the map.

    source                                      here
    std::variant<ErrorCode, Bytes>              `ErrorCode ⊕ Bytes`
    std::optional<ErrorCode>                    `Option ErrorCode`
    std::map<Bytes, Bytes>, const_iterator      `SortedMap Bytes Bytes`, its positions
    std::rand                                   `Draws`, carried by the run
-/
import Nyctomek.SkipList.Basic
import Nyctomek.Prog.SortedMap
import Nyctomek.Prog.Bytes

namespace Nyctomek.Level2DB

open Prog

inductive ErrorCode where
  | KEY_NOT_FOUND
  | END_OF_RANGE
  | GENERIC_ERROR
  deriving DecidableEq, Repr

structure Database where
  m_useSkipList : Bool
  m_keyValueStore : SortedMap Bytes Bytes
  m_skipListKVStore : SkipList Bytes Bytes

namespace Database

def new (useSkipList : Bool) : Database where
  m_useSkipList := useSkipList
  m_keyValueStore := SortedMap.empty
  m_skipListKVStore := SkipList.new none

/-- `Database::Get`. -/
def get (fuel : Nat) (db : Database) (key : Bytes) : Exec Fault (ErrorCode ⊕ Bytes) :=
  if db.m_useSkipList then do
    match ← db.m_skipListKVStore.find fuel key with
    | none => return .inl .KEY_NOT_FOUND
    | some targetValue => return .inr targetValue
  else
    match db.m_keyValueStore.find key with
    | [] => return .inl .KEY_NOT_FOUND
    | it :: _ => return .inr it.2

/-- `Database::Has`. -/
def has (fuel : Nat) (db : Database) (key : Bytes) : Exec Fault Bool :=
  if db.m_useSkipList then do
    let targetValue ← db.m_skipListKVStore.find fuel key
    return targetValue.isSome
  else return (db.m_keyValueStore.get? key).isSome

/-- `Database::Put`. -/
def put (fuel : Nat) (db : Database) (draws : Draws) (key value : Bytes) :
    Exec Fault (Option ErrorCode × Database × Draws) :=
  if db.m_useSkipList then do
    let (m_skipListKVStore, draws') ← db.m_skipListKVStore.insert fuel draws key value
    return (none, { db with m_skipListKVStore }, draws')
  else return (none, { db with m_keyValueStore := db.m_keyValueStore.set key value }, draws)

/-- `Database::Delete`. -/
def delete (fuel : Nat) (db : Database) (key : Bytes) :
    Exec Fault (Option ErrorCode × Database) :=
  if db.m_useSkipList then do
    let m_skipListKVStore ← db.m_skipListKVStore.remove fuel key
    return (none, { db with m_skipListKVStore })
  else
    let keysErased := if (db.m_keyValueStore.get? key).isSome then 1 else 0
    let db' := { db with m_keyValueStore := db.m_keyValueStore.erase key }
    if 0 = keysErased then return (some .KEY_NOT_FOUND, db')
    else return (none, db')

end Database

/-! ## The iterator -/

structure Iterator where
  m_current : List (Bytes × Bytes)
  m_end : List (Bytes × Bytes)
  deriving DecidableEq

namespace Iterator

/-- `++m_current`. -/
def increment (it : Iterator) : Except Fault Iterator :=
  match it.m_current with
  | [] => .error .endIterator
  | _ :: rest => .ok { it with m_current := rest }

/-- `Iterator::Next`. -/
def next (it : Iterator) : Except Fault (Bool × Iterator) :=
  if it.m_current = it.m_end then .ok (false, it)
  else do
    let it' ← it.increment
    if it'.m_current = it'.m_end then .ok (false, it') else .ok (true, it')

/-- `Iterator::Key`. -/
def key (it : Iterator) : Except Fault Bytes :=
  match it.m_current with
  | [] => .error .endIterator
  | p :: _ => .ok p.1

/-- `Iterator::Value`. -/
def value (it : Iterator) : Except Fault Bytes :=
  match it.m_current with
  | [] => .error .endIterator
  | p :: _ => .ok p.2

/-- What a caller reads at a position. -/
def read (it : Iterator) : Except Fault (Bytes × Bytes) := do
  let key ← it.key
  let value ← it.value
  .ok (key, value)

/-- One turn of a caller's loop: `Next`, and read the position if it is true. -/
def scanTurn (s : Iterator × List (Bytes × Bytes)) :
    Except Fault (Turn (Iterator × List (Bytes × Bytes)) (List (Bytes × Bytes))) := do
  let (more, it) ← s.1.next
  if more then
    let pair ← it.read
    .ok (.again (it, s.2 ++ [pair]))
  else .ok (.stop s.2)

/-- Read a range through its iterator: the initial position, if there is
anything to read, and then on until `Next` returns false. -/
def scan (fuel : Nat) (nonEmpty : Bool) (it : Iterator) : Exec Fault (List (Bytes × Bytes)) := do
  if nonEmpty then
    let pair ← (it.read : Exec Fault _)
    loop scanTurn fuel (it, [pair])
  else loop scanTurn fuel (it, [])

end Iterator

/-- `Database::RangeScan`. -/
def Database.rangeScan (db : Database) (start end_ : Bytes) : Iterator where
  m_current := db.m_keyValueStore.find start
  m_end := db.m_keyValueStore.find end_

/-! ## Runs of calls -/

inductive Call where
  | Put (key value : Bytes)
  | Get (key : Bytes)
  | Has (key : Bytes)
  | Delete (key : Bytes)
  deriving DecidableEq, Repr

/-- What a call returns to its caller. -/
inductive Reply where
  | got (result : ErrorCode ⊕ Bytes)
  | has (result : Bool)
  | status (result : Option ErrorCode)
  deriving DecidableEq

/-- A database, the outcomes of `std::rand` to come, and the replies so far. -/
structure Session where
  db : Database
  draws : Draws
  replies : List Reply

def Session.start (useSkipList : Bool) (draws : Draws) : Session :=
  ⟨Database.new useSkipList, draws, []⟩

def Session.call (fuel : Nat) (s : Session) : Call → Exec Fault Session
  | .Put key value => do
      let (status, db, draws) ← s.db.put fuel s.draws key value
      return ⟨db, draws, s.replies ++ [.status status]⟩
  | .Get key => do
      let result ← s.db.get fuel key
      return { s with replies := s.replies ++ [.got result] }
  | .Has key => do
      let result ← s.db.has fuel key
      return { s with replies := s.replies ++ [.has result] }
  | .Delete key => do
      let (status, db) ← s.db.delete fuel key
      return { s with db, replies := s.replies ++ [.status status] }

def Session.run (fuel : Nat) (s : Session) (calls : List Call) : Exec Fault Session :=
  calls.foldlM (Session.call fuel) s

end Nyctomek.Level2DB
