/-
# `SkipList.Basic` — the skip list of `skiplist.h`

The list is one class template: nodes with a tower of `MAX_LEVEL` next
pointers, a header node, and `d_nodes`, the vector that owns every node.  The
nodes live on a heap; `d_nodes` holds their addresses.  Every pointer that is
followed and every array slot that is used goes through an access that can
fail, so an operation here has an outcome exactly when the C++ one is defined.

Each `while` loop is a turn function run by `Prog.loop`:

    insert    `insertTurn`, then `linkLevels` (the `for` loop over the new tower)
    remove    `removeTurn`, then `relinkTurn`, then the `find_if`/`erase` on `d_nodes`
    find      `findTurn`

`computeLevel` draws from `std::rand`; its outcomes are a stream, `Draws`.
-/
import Nyctomek.Prog.Loop
import Nyctomek.Prog.Heap
import Mathlib.Algebra.Group.Nat.Defs
import Mathlib.Order.Lattice

namespace Nyctomek

open Prog

abbrev MAX_LEVEL : Nat := 16

/-- `level - 1` in `size_t`: it wraps round at 0. -/
def sizePred (level : Nat) : Nat := (level + (2 ^ 64 - 1)) % 2 ^ 64

/-- An array of `MAX_LEVEL` node pointers, null or not. -/
abbrev Tower := Vector (Option Ptr) MAX_LEVEL

namespace Tower

/-- `Node* tower[MAX_LEVEL] = {0}`. -/
def null : Tower := Vector.replicate MAX_LEVEL none

def get (t : Tower) (levelIndex : Nat) : Except Fault (Option Ptr) :=
  if h : levelIndex < MAX_LEVEL then .ok t[levelIndex]
  else .error (.indexOutOfRange levelIndex)

def set (t : Tower) (levelIndex : Nat) (p : Option Ptr) : Except Fault Tower :=
  if h : levelIndex < MAX_LEVEL then .ok (Vector.set t levelIndex p h)
  else .error (.indexOutOfRange levelIndex)

end Tower

structure Node (Key Value : Type) where
  d_key : Key
  d_value : Value
  d_level : Nat
  d_nextNode : Tower
  deriving DecidableEq, Repr

/-- The deterministic generator of the tests: 1, 2, …, `d_maxLevel`, 1, 2, … -/
structure LevelGenerator where
  d_level : Nat
  d_maxLevel : Nat
  deriving DecidableEq, Repr

def LevelGenerator.computeLevel (g : LevelGenerator) :
    Except Fault (Nat × LevelGenerator) :=
  if g.d_maxLevel = 0 then .error .divisionByZero
  else
    let level := g.d_level % g.d_maxLevel + 1
    .ok (level, { g with d_level := level })

/-- What the calls of `std::rand` from now on return. -/
abbrev Draws := Nat → Nat

/-- `while(std::rand() % 2 && level < MAX_LEVEL) level++`, where `level` can
still rise `room` times: the level reached and the draws left over. -/
def randLevel : Nat → Nat → Draws → Nat × Draws
  -- at MAX_LEVEL the last draw is made all the same
  | 0, level, draws => (level, fun n => draws (n + 1))
  | room + 1, level, draws =>
      if draws 0 % 2 = 0 then (level, fun n => draws (n + 1))
      else randLevel room (level + 1) (fun n => draws (n + 1))

structure SkipList (Key Value : Type) where
  d_nodes : List Ptr
  d_levelGenerator : Option LevelGenerator
  heap : Heap (Node Key Value)
  deriving DecidableEq, Repr

/-! ## Pointers into the heap of nodes -/

section Access
variable {Key Value : Type}

/-- `p->d_nextNode[levelIndex]`. -/
def getNext (heap : Heap (Node Key Value)) (p : Option Ptr) (levelIndex : Nat) :
    Except Fault (Option Ptr) := do
  let node ← heap.deref p
  node.d_nextNode.get levelIndex

/-- `p->d_nextNode[levelIndex] = next`. -/
def setNext (heap : Heap (Node Key Value)) (p : Option Ptr) (levelIndex : Nat)
    (next : Option Ptr) : Except Fault (Heap (Node Key Value)) := do
  let node ← heap.deref p
  let tower ← node.d_nextNode.set levelIndex next
  match p with
  | none => .error .nullPointer
  | some p => .ok (heap.write p { node with d_nextNode := tower })

variable [LinearOrder Key]

/-- `nextNode && nextNode->d_key < key`. -/
def keyBelow (heap : Heap (Node Key Value)) (nextNode : Option Ptr) (key : Key) :
    Except Fault Bool :=
  match nextNode with
  | none => .ok false
  | some q => do
      let next ← heap.deref (some q)
      .ok (decide (next.d_key < key))

/-- `nextNode && nextNode->d_key == key`. -/
def keyEqual (heap : Heap (Node Key Value)) (nextNode : Option Ptr) (key : Key) :
    Except Fault Bool :=
  match nextNode with
  | none => .ok false
  | some q => do
      let next ← heap.deref (some q)
      .ok (decide (next.d_key = key))

end Access

namespace SkipList

variable {Key Value : Type}

/-- The constructor: a header of full height with all its links null. -/
def new [Inhabited Key] [Inhabited Value] (levelGenerator : Option LevelGenerator) :
    SkipList Key Value where
  d_nodes := [Heap.fresh (Heap.empty (α := Node Key Value))]
  d_levelGenerator := levelGenerator
  heap := Heap.empty.alloc ⟨default, default, MAX_LEVEL, Tower.null⟩

/-- `d_nodes[0].get()`. -/
def header (l : SkipList Key Value) : Except Fault Ptr :=
  match l.d_nodes with
  | [] => .error (.indexOutOfRange 0)
  | p :: _ => .ok p

/-- `SkipList::computeLevel`: the level, and the generator and draws left. -/
def computeLevel (l : SkipList Key Value) (draws : Draws) :
    Except Fault (Nat × Option LevelGenerator × Draws) :=
  match l.d_levelGenerator with
  | some g => do
      let (level, g') ← g.computeLevel
      .ok (level, some g', draws)
  | none =>
      let (level, draws') := randLevel (MAX_LEVEL - 1) 1 draws
      .ok (level, none, draws')

/-- The variables of the descents in `insert` and `remove`. -/
structure Descent where
  node : Ptr
  level : Nat
  previousNodes : Tower
  deriving DecidableEq, Repr

variable [LinearOrder Key]

/-! ## `insert` -/

/-- One turn of the descent in `insert`; it records a predecessor every time. -/
def insertTurn (heap : Heap (Node Key Value)) (key : Key) (d : Descent) :
    Except Fault (Turn Descent Descent) :=
  if d.level = 0 then .ok (.stop d)
  else do
    let levelIndex := sizePred d.level
    let previousNodes ← d.previousNodes.set levelIndex (some d.node)
    let nextNode ← getNext heap (some d.node) levelIndex
    let below ← keyBelow heap nextNode key
    match nextNode, below with
    | some q, true => .ok (.again { d with node := q, previousNodes })
    | _, _ => .ok (.again { d with level := sizePred d.level, previousNodes })

/-- The `for` loop of `insert` over the levels of the new node, top down. -/
def linkLevels (header newNode : Ptr) (previousNodes : Tower) :
    Nat → Heap (Node Key Value) → Except Fault (Heap (Node Key Value))
  | 0, heap => .ok heap
  | newNodeLevelIndex + 1, heap => do
      match ← previousNodes.get newNodeLevelIndex with
      | some previousNodeAtLevel =>
          let next ← getNext heap (some previousNodeAtLevel) newNodeLevelIndex
          let heap ← setNext heap (some newNode) newNodeLevelIndex next
          let heap ← setNext heap (some previousNodeAtLevel) newNodeLevelIndex (some newNode)
          linkLevels header newNode previousNodes newNodeLevelIndex heap
      | none =>
          let heap ← setNext heap (some header) newNodeLevelIndex (some newNode)
          linkLevels header newNode previousNodes newNodeLevelIndex heap

/-- The second half of `insert`: allocate the node, link its levels, own it. -/
def link (l : SkipList Key Value) (previousNodes : Tower) (key : Key) (value : Value)
    (level : Nat) : Except Fault (SkipList Key Value) := do
  let header ← l.header
  let newNode := l.heap.fresh
  let heap ← linkLevels header newNode previousNodes level
    (l.heap.alloc ⟨key, value, level, Tower.null⟩)
  .ok { l with d_nodes := l.d_nodes ++ [newNode], heap }

/-- The descent of `insert`. -/
def insertDescent (fuel : Nat) (l : SkipList Key Value) (key : Key) : Exec Fault Descent := do
  let node ← (l.header : Exec Fault Ptr)
  loop (insertTurn l.heap key) fuel ⟨node, MAX_LEVEL, Tower.null⟩

/-- `SkipList::insert` when `computeLevel` returns `level`. -/
def insertAt (fuel : Nat) (l : SkipList Key Value) (key : Key) (value : Value)
    (level : Nat) : Exec Fault (SkipList Key Value) := do
  let d ← insertDescent fuel l key
  l.link d.previousNodes key value level

/-- `SkipList::insert`. -/
def insert (fuel : Nat) (l : SkipList Key Value) (draws : Draws) (key : Key) (value : Value) :
    Exec Fault (SkipList Key Value × Draws) := do
  let d ← insertDescent fuel l key
  let (level, d_levelGenerator, draws') ← (l.computeLevel draws : Exec Fault _)
  let l' ← ({ l with d_levelGenerator } : SkipList Key Value).link d.previousNodes key value level
  return (l', draws')

/-! ## `remove` -/

/-- One turn of the descent in `remove`; a predecessor is recorded on the way down. -/
def removeTurn (heap : Heap (Node Key Value)) (key : Key) (d : Descent) :
    Except Fault (Turn Descent Descent) :=
  if d.level = 0 then .ok (.stop d)
  else do
    let levelIndex := sizePred d.level
    let nextNode ← getNext heap (some d.node) levelIndex
    let below ← keyBelow heap nextNode key
    match nextNode, below with
    | some q, true => .ok (.again { d with node := q })
    | _, _ =>
        let previousNodes ← d.previousNodes.set levelIndex (some d.node)
        .ok (.again { d with level := sizePred d.level, previousNodes })

/-- One turn of the walk back up in `remove`: the level and the heap. -/
def relinkTurn (nodeToRemove : Ptr) (previousNodes : Tower) (s : Nat × Heap (Node Key Value)) :
    Except Fault (Turn (Nat × Heap (Node Key Value)) (Heap (Node Key Value))) :=
  let (level, heap) := s
  if level ≤ MAX_LEVEL then do
    let levelIndex := sizePred level
    let previousNode ← previousNodes.get levelIndex
    let next ← getNext heap previousNode levelIndex
    if next = some nodeToRemove then
      let after ← getNext heap (some nodeToRemove) levelIndex
      let heap ← setNext heap previousNode levelIndex after
      .ok (.again (level + 1, heap))
    else .ok (.again (level + 1, heap))
  else .ok (.stop heap)

/-- `d_nodes.erase(std::find_if(…))`: the node is destroyed with its owner. -/
def eraseNode (l : SkipList Key Value) (nodeToRemove : Option Ptr) :
    Except Fault (SkipList Key Value) :=
  match nodeToRemove with
  | none => .error .eraseAtEnd
  | some p =>
      if p ∈ l.d_nodes then
        .ok { l with d_nodes := l.d_nodes.erase p, heap := l.heap.free p }
      else .error .eraseAtEnd

/-- The descent of `remove`. -/
def removeDescent (fuel : Nat) (l : SkipList Key Value) (key : Key) : Exec Fault Descent := do
  let node ← (l.header : Exec Fault Ptr)
  loop (removeTurn l.heap key) fuel ⟨node, MAX_LEVEL, Tower.null⟩

/-- `SkipList::remove`. -/
def remove (fuel : Nat) (l : SkipList Key Value) (key : Key) :
    Exec Fault (SkipList Key Value) := do
  let d ← removeDescent fuel l key
  let next ← (getNext l.heap (some d.node) 0 : Exec Fault _)
  let found ← (keyEqual l.heap next key : Exec Fault _)
  match next, found with
  | some nodeToRemove, true =>
      let heap ← loop (relinkTurn nodeToRemove d.previousNodes) fuel (d.level, l.heap)
      ({ l with heap } : SkipList Key Value).eraseNode (some nodeToRemove)
  | _, _ => l.eraseNode none

/-! ## `find` -/

/-- The variables of `find`. -/
structure Search where
  currentNode : Ptr
  level : Nat
  deriving DecidableEq, Repr

/-- One turn of `find`. -/
def findTurn (heap : Heap (Node Key Value)) (key : Key) (s : Search) :
    Except Fault (Turn Search (Option Value)) :=
  if s.level = 0 then .ok (.stop none)
  else do
    let levelIndex := sizePred s.level
    let nextNode ← getNext heap (some s.currentNode) levelIndex
    match nextNode with
    | none => .ok (.again { s with level := sizePred s.level })
    | some q =>
        let next ← heap.deref (some q)
        if next.d_key = key then .ok (.stop (some next.d_value))
        else if next.d_key < key then .ok (.again ⟨q, next.d_level⟩)
        else .ok (.again { s with level := sizePred s.level })

/-- `SkipList::find`. -/
def find (fuel : Nat) (l : SkipList Key Value) (key : Key) : Exec Fault (Option Value) := do
  let currentNode ← (l.header : Exec Fault Ptr)
  let node ← (l.heap.deref (some currentNode) : Exec Fault _)
  loop (findTurn l.heap key) fuel ⟨currentNode, node.d_level⟩

end SkipList

end Nyctomek
