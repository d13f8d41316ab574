/-
# `Prog.SortedMap` — ordered maps and their iterators

An ordered map is the list of its pairs in strictly ascending key order; the
order is part of the type, so every operation keeps it.  A position in the map
is the list of the pairs from there on, and `[]` is the position past the end:
two positions of one map are the same exactly when these lists are.
-/
import Mathlib.Order.Lattice
import Mathlib.Data.List.Pairwise
import Mathlib.Data.List.TakeWhile
import Mathlib.Tactic.Tauto

namespace Prog

structure SortedMap (K V : Type) [LinearOrder K] where
  entries : List (K × V)
  sorted : entries.Pairwise fun p q => p.1 < q.1
  deriving DecidableEq

namespace SortedMap

variable {K V : Type} [LinearOrder K]

def empty : SortedMap K V := ⟨[], List.Pairwise.nil⟩

/-- `m[k] = v`. -/
def set (m : SortedMap K V) (k : K) (v : V) : SortedMap K V where
  entries := (m.entries.filter fun p => p.1 < k) ++ (k, v) :: m.entries.filter fun p => k < p.1
  sorted := by
    refine List.pairwise_append.mpr ⟨m.sorted.filter _,
      List.pairwise_cons.mpr ⟨fun p hp => ?_, m.sorted.filter _⟩, fun p hp q hq => ?_⟩
    · simpa using (List.mem_filter.mp hp).2
    · have hpk : p.1 < k := by simpa using (List.mem_filter.mp hp).2
      rcases List.mem_cons.mp hq with rfl | hq
      · exact hpk
      · exact lt_trans hpk (by simpa using (List.mem_filter.mp hq).2)

/-- `m.erase(k)`: what is left. -/
def erase (m : SortedMap K V) (k : K) : SortedMap K V where
  entries := m.entries.filter fun p => p.1 ≠ k
  sorted := m.sorted.filter _

/-- `m.find(k)` as a position. -/
def find (m : SortedMap K V) (k : K) : List (K × V) :=
  m.entries.dropWhile fun p => p.1 ≠ k

/-- The value under a key. -/
def get? (m : SortedMap K V) (k : K) : Option V := (m.find k).head?.map Prod.snd

theorem mem_set {m : SortedMap K V} {k : K} {v : V} {p : K × V} :
    p ∈ (m.set k v).entries ↔ p = (k, v) ∨ p ∈ m.entries ∧ p.1 ≠ k := by
  simp only [set, List.mem_append, List.mem_cons, List.mem_filter, decide_eq_true_eq,
    ne_iff_lt_or_gt]
  tauto

theorem mem_erase {m : SortedMap K V} {k : K} {p : K × V} :
    p ∈ (m.erase k).entries ↔ p ∈ m.entries ∧ p.1 ≠ k := by
  simp [erase]

/-- Around a pair of the map, the keys before it are smaller and those after it
greater. -/
theorem lt_of_split {m : SortedMap K V} {A B : List (K × V)} {p : K × V}
    (h : m.entries = A ++ p :: B) : (∀ q ∈ A, q.1 < p.1) ∧ ∀ q ∈ B, p.1 < q.1 := by
  have hs := m.sorted
  rw [h] at hs
  obtain ⟨-, hB, hA⟩ := List.pairwise_append.mp hs
  exact ⟨fun q hq => hA q hq p (by simp), (List.pairwise_cons.mp hB).1⟩

/-- The pairs from a pair on are those whose keys are not smaller. -/
theorem le_iff_of_split {m : SortedMap K V} {A B : List (K × V)} {p q : K × V}
    (h : m.entries = A ++ p :: B) (hq : q ∈ m.entries) : p.1 ≤ q.1 ↔ q ∈ p :: B := by
  obtain ⟨hA, hB⟩ := lt_of_split h
  constructor
  · intro hle
    rw [h] at hq
    exact (List.mem_append.mp hq).resolve_left fun hqA => absurd (hA q hqA) (not_lt.mpr hle)
  · intro hqB
    rcases List.mem_cons.mp hqB with rfl | hqB
    · exact le_refl _
    · exact le_of_lt (hB q hqB)

/-- A pair of the map splits it, and is what `find` finds. -/
theorem find_of_split {m : SortedMap K V} {A B : List (K × V)} {p : K × V}
    (h : m.entries = A ++ p :: B) : m.find p.1 = p :: B := by
  have hA : ∀ q ∈ A, q.1 ≠ p.1 := fun q hq => ne_of_lt ((lt_of_split h).1 q hq)
  rw [find, h, List.dropWhile_append_of_pos fun q hq => by simpa using hA q hq]
  simp

theorem get?_of_mem {m : SortedMap K V} {p : K × V} (hp : p ∈ m.entries) :
    m.get? p.1 = some p.2 := by
  obtain ⟨A, B, h⟩ := List.append_of_mem hp
  rw [get?, find_of_split h]
  rfl

theorem find_eq_nil {m : SortedMap K V} {k : K} :
    m.find k = [] ↔ ∀ p ∈ m.entries, p.1 ≠ k := by
  simp [find, List.dropWhile_eq_nil_iff]

theorem mem_of_get? {m : SortedMap K V} {k : K} {v : V} (h : m.get? k = some v) :
    (k, v) ∈ m.entries := by
  cases hf : m.find k with
  | nil => simp [get?, hf] at h
  | cons p B =>
      have hk : p.1 = k := by
        have hhead := List.head?_dropWhile_not (fun p : K × V => decide (p.1 ≠ k)) m.entries
        rw [show m.entries.dropWhile (fun p => decide (p.1 ≠ k)) = p :: B from hf] at hhead
        simpa using hhead
      have hmem : p ∈ m.entries := (List.dropWhile_sublist _).subset (by
        rw [show m.entries.dropWhile (fun p => decide (p.1 ≠ k)) = p :: B from hf]; simp)
      have hv : p.2 = v := by simpa [get?, hf] using h
      subst hk hv
      exact hmem

theorem get?_eq_some {m : SortedMap K V} {k : K} {v : V} :
    m.get? k = some v ↔ (k, v) ∈ m.entries :=
  ⟨mem_of_get?, fun h => get?_of_mem h⟩

theorem get?_set (m : SortedMap K V) (k : K) (v : V) (k' : K) :
    (m.set k v).get? k' = if k' = k then some v else m.get? k' := by
  refine Option.ext ?_
  intro w
  rw [get?_eq_some, mem_set]
  by_cases hk : k' = k
  · simp [hk, eq_comm]
  · simp [hk, get?_eq_some]

theorem get?_erase (m : SortedMap K V) (k k' : K) :
    (m.erase k).get? k' = if k' = k then none else m.get? k' := by
  refine Option.ext ?_
  intro w
  rw [get?_eq_some, mem_erase]
  by_cases hk : k' = k
  · simp [hk]
  · simp [hk, get?_eq_some]

/-- Erasing a key that is not there changes nothing. -/
theorem erase_of_get?_none {m : SortedMap K V} {k : K} (h : m.get? k = none) : m.erase k = m := by
  have hkeep : (m.entries.filter fun p => p.1 ≠ k) = m.entries := by
    refine List.filter_eq_self.mpr ?_
    intro p hp
    rw [decide_eq_true_eq]
    rintro rfl
    rw [get?_of_mem hp] at h
    cases h
  cases m with
  | mk entries sorted => simp only [erase, hkeep]

end SortedMap

end Prog
