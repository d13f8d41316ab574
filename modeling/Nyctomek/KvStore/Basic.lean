/-
# `KvStore.Basic` — the key-value store of `kvstore/main.cpp`

The map in memory is written out whole by every `set`, a line `key,value` for each
entry in the order the hash table happens to have; a new process reads the lines
back through a buffer of 1024 bytes, as C strings.

    in memory       any key without ' ', '=' and ','; any value without these
    in the file     the bytes of the two, a ',' between them, a newline behind
    read back       up to the first NUL, by lines of at most 1023 bytes
-/
import Nyctomek.Prog.Bytes
import Nyctomek.Prog.Entries

namespace Nyctomek.KvStore

open Prog

def newline : UInt8 := 10
def space : UInt8 := 32
def equals : UInt8 := 61
def comma : UInt8 := 44
def nul : UInt8 := 0

/-- `std::unordered_map<std::string, std::string>`. -/
abbrev Map := Bytes → Option Bytes

/-- The entries in the order in which a loop over the map meets them. -/
abbrev Entries := List (Bytes × Bytes)

/-- A line of input. -/
structure Line where
  bytes : Bytes
  noNewline : newline ∉ bytes
  deriving DecidableEq, Repr

inductive CommandType where
  | GET
  | SET
  deriving DecidableEq, Repr

structure Command where
  d_commandType : CommandType
  d_key : Bytes
  d_value : Bytes
  deriving DecidableEq, Repr

/-- The map, and the contents of the data file if there is one. -/
structure State where
  kvStore : Map
  dataFile : Option Bytes

/-! ## Commands -/

/-- The line of an entry. -/
def record (kv : Bytes × Bytes) : Bytes := kv.1 ++ comma :: (kv.2 ++ [newline])

/-- What the loop writes into the truncated file. -/
def fileOf (entries : Entries) : Bytes := entries.flatMap record

/-- `processCommand`: the status and the value, and what it leaves.  A `set` meets the
entries of the map in the order of `entries`. -/
def processCommand (entries : Entries) (command : Command) (s : State) :
    (Bool × Option Bytes) × State :=
  match command.d_commandType with
  | .GET =>
      match s.kvStore command.d_key with
      | some value => ((true, some value), s)
      | none => ((false, none), s)
  | .SET =>
      ((true, none), ⟨assign s.kvStore command.d_key command.d_value, some (fileOf entries)⟩)

def containsIllegalChars (token : Bytes) : Bool :=
  [space, equals, comma].any fun c => token.contains c

/-- What becomes of a line of input. -/
inductive Input where
  | exit
  | invalid
  | valid (command : Command)
  deriving DecidableEq, Repr

/-- `return std::make_pair(!invalidInput, command)`. -/
def checked (commandType : CommandType) (key value : Bytes) : Input :=
  if containsIllegalChars key || containsIllegalChars value then .invalid
  else .valid ⟨commandType, key, value⟩

def handleInput (input : Bytes) : Input :=
  if input = ascii "quit()" then .exit
  else if ascii "get " <+: input then checked .GET (input.drop 4) []
  else if ascii "set " <+: input then
    match input.findIdx? (· == equals) with
    | some keyEnd => checked .SET ((input.drop 4).take (keyEnd - 4)) (input.drop (keyEnd + 1))
    | none => .invalid
  else .invalid

/-! ## The data file -/

def MAX_LINE_LENGTH : Nat := 1024

/-- `dataFile.getline(lineBuffer, sizeof lineBuffer)`: what has been stored, and the
rest of the stream; `none` if the stream has failed. -/
def getline (stream : Bytes) : Option (Bytes × Bytes) :=
  let line := stream.takeWhile (· != newline)
  if stream = [] ∨ MAX_LINE_LENGTH ≤ line.length then none
  else some (line, stream.drop (line.length + 1))

/-- `std::string line{lineBuffer}`. -/
def cString (lineBuffer : Bytes) : Bytes := lineBuffer.takeWhile (· != nul)

/-- Key and value of a line: both of them the line, if it has no comma. -/
def parse (line : Bytes) : Bytes × Bytes :=
  match line.findIdx? (· == comma) with
  | some commaPosition => (line.take commaPosition, line.drop (commaPosition + 1))
  | none => (line, line)

theorem length_of_getline {stream line rest : Bytes} (h : getline stream = some (line, rest)) :
    rest.length < stream.length := by
  simp only [getline] at h
  split at h
  · cases h
  · rename_i hcond
    obtain ⟨-, rfl⟩ := Prod.mk.inj (Option.some.inj h)
    have hpos := List.length_pos_of_ne_nil (not_or.mp hcond).1
    rw [List.length_drop]
    omega

/-- The loop over the lines of the file. -/
def readLines (kvStore : Map) (stream : Bytes) : Map :=
  match h : getline stream with
  | none => kvStore
  | some (lineBuffer, rest) =>
      have := length_of_getline h
      let kv := parse (cString lineBuffer)
      readLines (assign kvStore kv.1 kv.2) rest
termination_by stream.length

theorem readLines_of_none {m : Map} {stream : Bytes} (h : getline stream = none) :
    readLines m stream = m := by
  rw [readLines]
  split
  · rfl
  · rename_i hsome
    exact absurd (h.symm.trans hsome) (by simp)

theorem readLines_of_some {m : Map} {stream lineBuffer rest : Bytes}
    (h : getline stream = some (lineBuffer, rest)) : readLines m stream
      = readLines (assign m (parse (cString lineBuffer)).1 (parse (cString lineBuffer)).2) rest := by
  rw [readLines]
  split
  · rename_i hnone
    exact absurd (h.symm.trans hnone) (by simp)
  · rename_i hsome
    obtain ⟨rfl, rfl⟩ := Prod.mk.inj (Option.some.inj (h.symm.trans hsome))
    rfl

/-- What a process starts with. -/
def initializeFromDataStore (dataFile : Option Bytes) : Map :=
  match dataFile with
  | some contents => readLines (fun _ => none) contents
  | none => fun _ => none

/-! ## Runs -/

/-- One process after another line of input, `some entries` being the order in which a
`set` meets the map. -/
inductive Runs : State → List Line → State → Prop
  | done (s : State) : Runs s [] s
  | exit {s : State} {line : Line} {lines : List Line} :
      handleInput line.bytes = .exit → Runs s (line :: lines) s
  | invalid {s s' : State} {line : Line} {lines : List Line} :
      handleInput line.bytes = .invalid → Runs s lines s' → Runs s (line :: lines) s'
  | command {s s' : State} {line : Line} {lines : List Line} {command : Command} {entries : Entries} :
      handleInput line.bytes = .valid command →
      (command.d_commandType = .SET →
        Enumerates entries (assign s.kvStore command.d_key command.d_value)) →
      Runs (processCommand entries command s).2 lines s' → Runs s (line :: lines) s'

/-- Nothing in memory, and no data file. -/
def start : State := ⟨fun _ => none, none⟩

end Nyctomek.KvStore
