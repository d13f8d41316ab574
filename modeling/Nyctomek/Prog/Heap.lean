/-
# `Prog.Heap` — objects behind pointers

A heap hands out pointers in the order of allocation and never reuses one, so
that a pointer identifies an object for the whole run; a freed cell stays
behind empty.  `Fault` lists the operations on pointers, arrays and iterators
that have no defined meaning: code that performs one has no outcome to speak
of.
-/
import Mathlib.Logic.Basic

namespace Prog

/-- An address handed out by a heap. -/
abbrev Ptr := Nat

/-- Operations without a defined meaning. -/
inductive Fault where
  | nullPointer
  | dangling (p : Ptr)
  | indexOutOfRange (index : Nat)
  | eraseAtEnd
  | endIterator
  | divisionByZero
  | overflow
  deriving DecidableEq, Repr

/-- The cells allocated so far, by address. -/
structure Heap (α : Type) where
  cells : List (Option α)
  deriving DecidableEq, Repr

namespace Heap

variable {α : Type}

def empty : Heap α := ⟨[]⟩

/-- The address the next allocation returns. -/
def fresh (h : Heap α) : Ptr := h.cells.length

def alloc (h : Heap α) (a : α) : Heap α := ⟨h.cells ++ [some a]⟩

def read (h : Heap α) (p : Ptr) : Option α := (h.cells[p]?).join

def write (h : Heap α) (p : Ptr) (a : α) : Heap α := ⟨h.cells.set p (some a)⟩

def free (h : Heap α) (p : Ptr) : Heap α := ⟨h.cells.set p none⟩

/-- Follow a pointer that may be null. -/
def deref (h : Heap α) : Option Ptr → Except Fault α
  | none => .error .nullPointer
  | some p =>
      match h.read p with
      | some a => .ok a
      | none => .error (.dangling p)

theorem deref_some {h : Heap α} {p : Ptr} {a : α} (hp : h.read p = some a) :
    h.deref (some p) = .ok a := by simp only [deref, hp]

theorem read_lt_fresh {h : Heap α} {p : Ptr} {a : α} (hp : h.read p = some a) :
    p < h.fresh := by
  refine Nat.lt_of_not_le ?_
  intro hle
  have hnone : h.cells[p]? = none := List.getElem?_eq_none hle
  simp [read, hnone] at hp

theorem read_fresh (h : Heap α) : h.read h.fresh = none := by
  simp [read, fresh]

theorem fresh_alloc (h : Heap α) (a : α) : (h.alloc a).fresh = h.fresh + 1 := by
  simp [fresh, alloc]

theorem read_alloc_fresh (h : Heap α) (a : α) : (h.alloc a).read h.fresh = some a := by
  simp [read, alloc, fresh]

theorem read_alloc_of_ne (h : Heap α) (a : α) {p : Ptr} (hp : p ≠ h.fresh) :
    (h.alloc a).read p = h.read p := by
  rcases Nat.lt_or_gt_of_ne hp with hlt | hgt
  · simp [read, alloc, List.getElem?_append_left hlt]
  · have hlen : h.cells.length + 1 ≤ p := hgt
    have h₁ : (h.cells ++ [some a])[p]? = none := List.getElem?_eq_none (by simpa using hlen)
    have h₂ : h.cells[p]? = none := List.getElem?_eq_none (Nat.le_of_lt hgt)
    simp [read, alloc, h₁, h₂]

theorem read_alloc_of_read {h : Heap α} {p : Ptr} {b : α} (a : α) (hp : h.read p = some b) :
    (h.alloc a).read p = some b :=
  (read_alloc_of_ne h a (Nat.ne_of_lt (read_lt_fresh hp))).trans hp

theorem fresh_write (h : Heap α) (p : Ptr) (a : α) : (h.write p a).fresh = h.fresh := by
  simp [fresh, write]

theorem read_write_self {h : Heap α} {p : Ptr} (a : α) (hp : p < h.fresh) :
    (h.write p a).read p = some a := by
  simp [read, write, List.getElem?_set_self hp]

theorem read_write_of_ne (h : Heap α) {p q : Ptr} (a : α) (hq : q ≠ p) :
    (h.write p a).read q = h.read q := by
  simp [read, write, List.getElem?_set_ne hq.symm]

theorem read_free_of_ne (h : Heap α) {p q : Ptr} (hq : q ≠ p) : (h.free p).read q = h.read q := by
  simp [read, free, List.getElem?_set_ne hq.symm]

theorem read_free_self (h : Heap α) (p : Ptr) : (h.free p).read p = none := by
  simp only [read, free, List.getElem?_set_self']
  cases h.cells[p]? <;> rfl

theorem fresh_free (h : Heap α) (p : Ptr) : (h.free p).fresh = h.fresh := by
  simp [fresh, free]

theorem read_of_fresh_le {h : Heap α} {p : Ptr} (hp : h.fresh ≤ p) : h.read p = none := by
  cases hread : h.read p with
  | none => rfl
  | some a => exact absurd (read_lt_fresh hread) (Nat.not_lt_of_le hp)

/-! ## What is kept -/

/-- `h'` comes after `h`, and the cells of `h` are as they were. -/
structure Keeps (h h' : Heap α) : Prop where
  fresh : h.fresh ≤ h'.fresh
  read : ∀ p < h.fresh, h'.read p = h.read p

variable {h h' h'' : Heap α} {p : Ptr}

theorem Keeps.refl (h : Heap α) : h.Keeps h := ⟨Nat.le_refl _, fun _ _ => rfl⟩

theorem Keeps.trans (hh' : h.Keeps h') (hh'' : h'.Keeps h'') : h.Keeps h'' := by
  refine ⟨Nat.le_trans hh'.fresh hh''.fresh, ?_⟩
  intro p hp
  rw [hh''.read p (Nat.lt_of_lt_of_le hp hh'.fresh), hh'.read p hp]

theorem Keeps.alloc (hh' : h.Keeps h') (a : α) : h.Keeps (h'.alloc a) := by
  refine ⟨?_, ?_⟩
  · rw [fresh_alloc]
    exact Nat.le_succ_of_le hh'.fresh
  · intro p hp
    rw [read_alloc_of_ne h' a (Nat.ne_of_lt (Nat.lt_of_lt_of_le hp hh'.fresh)), hh'.read p hp]

/-- New cells may be changed. -/
theorem Keeps.write (hh' : h.Keeps h') (hp : h.fresh ≤ p) (a : α) : h.Keeps (h'.write p a) := by
  refine ⟨?_, ?_⟩
  · rw [fresh_write]
    exact hh'.fresh
  · intro q hq
    rw [read_write_of_ne h' a (Nat.ne_of_lt (Nat.lt_of_lt_of_le hq hp)), hh'.read q hq]

/-- Besides, all cells that have been allocated since have been freed. -/
structure Clears (h h' : Heap α) : Prop extends h.Keeps h' where
  freed : ∀ p, h.fresh ≤ p → h'.read p = none

theorem Clears.refl (h : Heap α) : h.Clears h := ⟨.refl h, fun _ => read_of_fresh_le⟩

theorem Clears.trans (hh' : h.Clears h') (hh'' : h'.Clears h'') : h.Clears h'' := by
  refine ⟨hh'.toKeeps.trans hh''.toKeeps, ?_⟩
  intro p hp
  rcases Nat.lt_or_ge p h'.fresh with hlt | hge
  · rw [hh''.read p hlt, hh'.freed p hp]
  · exact hh''.freed p hge

end Heap

end Prog
