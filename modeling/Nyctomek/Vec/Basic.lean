/-
# `Vec.Basic` — the vector of `vec.c`

A header of two lengths, and a block of numbers that is replaced when it gets too short.
Between the lengths lie numbers that have been in the vector and may be there again.

    get_vec_element, set_vec_element     below `len`; a block there is not checked for
    set_vec_length                       above `allocated_len` the block is freed and a new one
                                         asked for; whether there is one is not checked, either

What all this is for is a `Store`, which has numbered cells instead of a block.  Whatever is
asked of a vector, and wherever memory runs out, it cannot be told from its store.
-/
import Mathlib.Algebra.Group.Nat.Defs
import Mathlib.Algebra.Order.Ring.Int
import Mathlib.Logic.Function.Basic
import Nyctomek.Prog.Loop
import Nyctomek.Prog.Refinement

namespace Nyctomek.Vec

open Prog

/-- What the language leaves undefined. -/
inductive Fault where
  | nullPointer
  | outOfBounds (index : Int)
  | uninitialized
  | overflow
  deriving DecidableEq, Repr

/-- `vec_rec`; the block is `none` for `NULL`. -/
structure VecRec where
  len : Int
  data : Option (List Int)
  allocatedLen : Int
  deriving DecidableEq, Repr

/-- `calloc(n, sizeof(data_t))`, if there is memory: a negative number is a huge one, and a block
of more than 2⁶⁴ bytes is refused. -/
def calloc (memory : Bool) (n : Int) : Option (List Int) :=
  if memory = true ∧ 0 ≤ n ∧ n < 2 ^ 61 then some (List.replicate n.toNat 0) else none

/-- `new_vec`, with memory for the header and for the block. -/
def newVec (header memory : Bool) (len : Int) : Option VecRec :=
  if header = false then none
  else if 0 < len then (calloc memory len).map fun data => ⟨len, some data, len⟩
  else some ⟨len, none, len⟩

namespace VecRec
variable (v : VecRec)

/-- `v->data[index]` -/
def element (index : Int) : Except Fault Int :=
  match v.data with
  | none => .error .nullPointer
  | some data =>
      match data[index.toNat]? with
      | some value => if 0 ≤ index then .ok value else .error (.outOfBounds index)
      | none => .error (.outOfBounds index)

/-- `v->data[index] = val` -/
def setElement (index val : Int) : Except Fault VecRec :=
  match v.data with
  | none => .error .nullPointer
  | some data =>
      if 0 ≤ index ∧ index < data.length then .ok { v with data := some (data.set index.toNat val) }
      else .error (.outOfBounds index)

/-- What `get_vec_element` stores at `dest`; `none` if it returns 0. -/
def getVecElement (index : Int) : Except Fault (Option Int) :=
  if index < 0 ∨ v.len ≤ index then .ok none
  else do
    let value ← v.element index
    .ok (some value)

def vecLength : Int := v.len

/-- `set_vec_element`: whether it returns 1, and the vector. -/
def setVecElement (index val : Int) : Except Fault (Bool × VecRec) :=
  if index < 0 ∨ v.len ≤ index then .ok (false, v)
  else do
    let v ← v.setElement index val
    .ok (true, v)

def setVecLength (memory : Bool) (newlen : Int) : VecRec :=
  if v.allocatedLen < newlen then ⟨newlen, calloc memory newlen, newlen⟩
  else { v with len := newlen }

end VecRec

/-! ## Calls -/

inductive Call where
  | get (index : Int)
  | set (index val : Int)
  | length
  | setLength (memory : Bool) (newlen : Int)
  deriving DecidableEq, Repr

inductive Answer where
  | element (value : Option Int)
  | stored (done : Bool)
  | length (len : Int)
  | done
  deriving DecidableEq, Repr

def VecRec.step (v : VecRec) : Call → Except Fault (Answer × VecRec)
  | .get index => do
      let value ← v.getVecElement index
      .ok (.element value, v)
  | .set index val => do
      let (done, v) ← v.setVecElement index val
      .ok (.stored done, v)
  | .length => .ok (.length v.vecLength, v)
  | .setLength memory newlen => .ok (.done, v.setVecLength memory newlen)

/-! ## What a vector is for -/

/-- Cells, of which those below `reserved` are kept, also while they are behind the end; there are
none after memory has run out, until more are reserved. -/
structure Store where
  len : Int
  reserved : Int
  cells : Option (Int → Int)

namespace Store

/-- An access to a cell in front of the end. -/
def inside {α : Type} (st : Store) (index : Int) (outside : α) (f : (Int → Int) → α) :
    Except Fault α :=
  if 0 ≤ index ∧ index < st.len then
    match st.cells with
    | none => .error .nullPointer
    | some cells => .ok (f cells)
  else .ok outside

/-- Cells of zeros, if there is memory. -/
def reserve (memory : Bool) (n : Int) : Option (Int → Int) :=
  if memory = true ∧ n < 2 ^ 61 then some fun _ => 0 else none

/-- A longer store than has been reserved for is an empty one. -/
def resize (st : Store) (memory : Bool) (newlen : Int) : Store :=
  if st.reserved < newlen then
    ⟨newlen, newlen, reserve memory newlen⟩
  else { st with len := newlen }

def step (st : Store) : Call → Except Fault (Answer × Store)
  | .get index => st.inside index (.element none, st) fun cells => (.element (some (cells index)), st)
  | .set index val => st.inside index (.stored false, st) fun cells =>
      (.stored true, { st with cells := some (Function.update cells index val) })
  | .length => .ok (.length st.len, st)
  | .setLength memory newlen => .ok (.done, st.resize memory newlen)

/-- As it comes from `new_vec`. -/
def new (len : Int) : Store := ⟨len, len, some fun _ => 0⟩

end Store

/-- The block has what the cells have, as many of them as were allocated. -/
inductive Block (n : Int) : Option (List Int) → Option (Int → Int) → Prop
  | none : Block n none none
  | some {data : List Int} {cells : Int → Int} : (data.length : Int) = n →
      (∀ (i : Nat) (value : Int), data[i]? = some value → value = cells i) →
      Block n (some data) (some cells)

/-- A vector for the cells of a store. -/
structure Holds (v : VecRec) (st : Store) : Prop where
  len : v.len = st.len
  reserved : v.allocatedLen = st.reserved
  le : v.len ≤ v.allocatedLen
  block : 0 < v.allocatedLen → Block v.allocatedLen v.data st.cells

section
variable {v : VecRec} {st : Store} {header memory : Bool} {len index val : Int}

theorem block_calloc (memory : Bool) {n : Int} (hn : 0 < n) :
    Block n (calloc memory n) (Store.reserve memory n) := by
  unfold calloc Store.reserve
  by_cases h : memory = true ∧ n < 2 ^ 61
  · rw [if_pos h, if_pos ⟨h.1, Int.le_of_lt hn, h.2⟩]
    refine .some ?_ ?_
    · rw [List.length_replicate, Int.toNat_of_nonneg (Int.le_of_lt hn)]
    · intro i value hi
      obtain ⟨hlt, hvalue⟩ := List.getElem?_eq_some_iff.mp hi
      rw [← hvalue, List.getElem_replicate]
  · rw [if_neg h, if_neg fun hall => h ⟨hall.1, hall.2.2⟩]
    exact .none

theorem holds_newVec (h : newVec header memory len = some v) : Holds v (.new len) := by
  unfold newVec at h
  split at h
  · cases h
  · split at h
    · rename_i hpos
      obtain ⟨data, hcalloc, rfl⟩ := Option.map_eq_some_iff.mp h
      refine ⟨rfl, rfl, Int.le_refl _, ?_⟩
      intro hlen
      have hblock := block_calloc memory hlen
      rw [hcalloc] at hblock
      have hcells : Store.reserve memory len = some fun _ => 0 := by
        unfold Store.reserve
        split
        · rfl
        · rename_i hnot
          rw [Store.reserve, if_neg hnot] at hblock
          cases hblock
      rwa [hcells] at hblock
    · rename_i hpos
      cases h
      exact ⟨rfl, rfl, Int.le_refl _, fun hlen => absurd hlen hpos⟩

/-! ## One call -/

/-- In front of the end there are cells, and the block has them. -/
theorem Holds.block_of_inside (h : Holds v st) (hin : 0 ≤ index ∧ index < st.len) :
    Block v.allocatedLen v.data st.cells ∧ index < v.allocatedLen := by
  have hlt : index < v.allocatedLen := by
    have hle := h.le
    have hlen := h.len
    omega
  exact ⟨h.block (Int.lt_of_le_of_lt hin.1 hlt), hlt⟩

theorem Holds.outside_iff (h : Holds v st) :
    index < 0 ∨ v.len ≤ index ↔ ¬ (0 ≤ index ∧ index < st.len) := by
  rw [h.len]
  omega

theorem Holds.get (h : Holds v st) (index : Int) :
    Alike Holds (v.step (.get index)) (st.step (.get index)) := by
  rw [VecRec.step, VecRec.getVecElement, Store.step, Store.inside]
  by_cases hin : 0 ≤ index ∧ index < st.len
  · rw [if_pos hin, if_neg (mt h.outside_iff.mp (not_not.mpr hin))]
    obtain ⟨hblock, hlt⟩ := h.block_of_inside hin
    obtain ⟨len, data, allocatedLen⟩ := v
    obtain ⟨len', reserved, cells⟩ := st
    simp only at hblock hlt
    rw [VecRec.element]
    cases hblock with
    | none => exact .error _
    | some hlength hcells =>
        rename_i data cells
        obtain ⟨value, hvalue⟩ : ∃ value, data[index.toNat]? = some value :=
          ⟨_, List.getElem?_eq_getElem (by omega)⟩
        have hcell := hcells _ _ hvalue
        rw [Int.toNat_of_nonneg hin.1] at hcell
        simp only [hvalue, if_pos hin.1, ok_bind, hcell]
        exact .ok _ h
  · rw [if_neg hin, if_pos (h.outside_iff.mpr hin)]
    exact .ok _ h

theorem Holds.set (h : Holds v st) (index val : Int) :
    Alike Holds (v.step (.set index val)) (st.step (.set index val)) := by
  rw [VecRec.step, VecRec.setVecElement, Store.step, Store.inside]
  by_cases hin : 0 ≤ index ∧ index < st.len
  · rw [if_pos hin, if_neg (mt h.outside_iff.mp (not_not.mpr hin))]
    obtain ⟨hblock, hlt⟩ := h.block_of_inside hin
    obtain ⟨len, data, allocatedLen⟩ := v
    obtain ⟨len', reserved, cells⟩ := st
    simp only at hblock hlt
    rw [VecRec.setElement]
    cases hblock with
    | none => exact .error _
    | some hlength hcells =>
        rename_i data cells
        have hbounds : 0 ≤ index ∧ index < data.length := by omega
        simp only [if_pos hbounds, ok_bind]
        refine .ok _ ⟨h.len, h.reserved, h.le, fun _ => .some ?_ ?_⟩
        · rw [List.length_set, hlength]
        · intro i value hi
          rw [List.getElem?_set] at hi
          by_cases hsame : index.toNat = i
          · rw [if_pos hsame, if_pos (by omega)] at hi
            have hindex : (i : Int) = index := by omega
            rw [hindex, Function.update_self]
            exact (Option.some.inj hi).symm
          · rw [if_neg hsame] at hi
            rw [Function.update_of_ne (by omega)]
            exact hcells i value hi
  · rw [if_neg hin, if_pos (h.outside_iff.mpr hin)]
    exact .ok _ h

theorem Holds.setLength (h : Holds v st) (memory : Bool) (newlen : Int) :
    Holds (v.setVecLength memory newlen) (st.resize memory newlen) := by
  rw [VecRec.setVecLength, Store.resize, ← h.reserved]
  by_cases hlong : v.allocatedLen < newlen
  · rw [if_pos hlong, if_pos hlong]
    exact ⟨rfl, rfl, Int.le_refl _, fun hpos => block_calloc memory hpos⟩
  · rw [if_neg hlong, if_neg hlong]
    exact ⟨rfl, rfl, Int.not_lt.mp hlong, h.block⟩

/-- **One call.** -/
theorem refines_store : Refines VecRec.step Store.step Holds := by
  intro v st call h
  cases call with
  | get index => exact h.get index
  | set index val => exact h.set index val
  | length =>
      rw [VecRec.step, Store.step, VecRec.vecLength, h.len]
      exact .ok _ h
  | setLength memory newlen => exact .ok _ (h.setLength memory newlen)

end

end Nyctomek.Vec
