/-
# `Prog.MapIterator` — iterators of an ordered map that goes on changing

The positions of `Prog.SortedMap` are those of one map.  Here a position outlives the map that
it was taken from: whatever is inserted or erased, it goes on standing at its element, unless
that is erased itself.

    element     at an element of the map, by its key
    pastEnd     past the end
    erased      its element is gone: it can be neither compared nor moved nor read

As long as its element is there, it is a position of the map as that is at the time (`resolve`).
-/
import Nyctomek.Prog.SortedMap

namespace Prog

inductive Position (K : Type) where
  | element (key : K)
  | pastEnd
  | erased
  deriving DecidableEq, Repr

/-- What goes wrong with a position that is used when its element is gone. -/
inductive IteratorFault where
  | erased
  deriving DecidableEq, Repr

namespace Position

variable {K V : Type} [LinearOrder K]

/-- A position of one map, as it stands when other maps come after that. -/
def of : List (K × V) → Position K
  | [] => .pastEnd
  | p :: _ => .element p.1

/-- The position in the map as that is now. -/
def resolve (m : SortedMap K V) : Position K → Except IteratorFault (List (K × V))
  | .element k => .ok (m.find k)
  | .pastEnd => .ok []
  | .erased => .error .erased

/-- The key of the element that it stands at. -/
def key? : Position K → Option K
  | .element k => some k
  | .pastEnd | .erased => none

/-- When `k` is erased. -/
def erase (k : K) (p : Position K) : Position K := if p = .element k then .erased else p

/-- It can be used: its element, if it stands at one, is in the map. -/
structure Valid (m : SortedMap K V) (p : Position K) : Prop where
  stands : p ≠ .erased
  stored : ∀ k, p = .element k → (m.get? k).isSome

/-- `p` is behind the element of `k`: past the end if there is no greater key, or else at the
least of these. -/
def Follows (m : SortedMap K V) (k : K) (p : Position K) : Prop :=
  (p = .pastEnd ∧ ∀ k', (m.get? k').isSome → k' ≤ k) ∨
    ∃ k', p = .element k' ∧ k < k' ∧ (m.get? k').isSome ∧
      ∀ k'', (m.get? k'').isSome → k < k'' → k' ≤ k''

section
variable {m : SortedMap K V} {k : K} {v : V} {p q : Position K} {A B : List (K × V)}

omit [LinearOrder K] in
/-- Where there is something to read. -/
theorem exists_element_iff : (∃ k, p = .element k) ↔ ¬ (p = .erased ∨ p = .pastEnd) := by
  cases p with
  | element k => simp
  | pastEnd => simp
  | erased => simp

/-- A position is erased only at its own key. -/
theorem erase_eq_erased : p.erase k = .erased ↔ p = .erased ∨ p = .element k := by
  rw [erase]
  split
  · next h => exact iff_of_true rfl (.inr h)
  · next h => exact ⟨.inl, fun h' => h'.resolve_right h⟩

/-- Where it stands otherwise it goes on standing. -/
theorem erase_eq_element {k' : K} : p.erase k = .element k' ↔ p = .element k' ∧ k' ≠ k := by
  rw [erase]
  split
  · next h =>
      refine ⟨fun h' => (nomatch h'), ?_⟩
      rintro ⟨h', hne⟩
      exact absurd (element.inj (h'.symm.trans h)) hne
  · next h =>
      refine ⟨fun h' => ⟨h', ?_⟩, And.left⟩
      rintro rfl
      exact h h'

theorem erase_eq_pastEnd : p.erase k = .pastEnd ↔ p = .pastEnd := by
  rw [erase]
  split
  · next h => exact iff_of_false (fun h' => nomatch h') (h ▸ fun h' => nomatch h')
  · exact Iff.rfl

/-- The position that a key is found at. -/
theorem of_find (m : SortedMap K V) (k : K) :
    of (m.find k) = if (m.get? k).isSome then .element k else .pastEnd := by
  cases hget : m.get? k with
  | none =>
      rw [SortedMap.get?, Option.map_eq_none_iff, List.head?_eq_none_iff] at hget
      rw [hget]
      rfl
  | some v =>
      obtain ⟨A, B, hsplit⟩ := List.append_of_mem (SortedMap.mem_of_get? hget)
      have hfind : m.find k = (k, v) :: B := SortedMap.find_of_split hsplit
      rw [hfind]
      rfl

theorem Valid.find (m : SortedMap K V) (k : K) : Valid m (of (m.find k)) := by
  rw [of_find]
  by_cases hk : (m.get? k).isSome
  · rw [if_pos hk]
    refine ⟨fun h => (nomatch h), ?_⟩
    rintro _ ⟨⟩
    exact hk
  · rw [if_neg hk]
    exact ⟨fun h => (nomatch h), fun k' h => nomatch h⟩

/-- What it is now stands for the same. -/
theorem Valid.resolve (h : Valid m p) :
    ∃ B, p.resolve m = .ok B ∧ B <:+ m.entries ∧ of B = p := by
  cases p with
  | element k =>
      refine ⟨m.find k, rfl, List.dropWhile_suffix _, ?_⟩
      rw [of_find, if_pos (h.stored k rfl)]
  | pastEnd => exact ⟨[], rfl, List.nil_suffix, rfl⟩
  | erased => exact absurd rfl h.stands

/-- Two positions of one map are the same if they stand at the same key. -/
theorem of_inj {E : List (K × V)} (hB : B <:+ m.entries) (hE : E <:+ m.entries) (h : of B = of E) :
    B = E := by
  obtain ⟨A, hA⟩ := hB
  obtain ⟨A', hA'⟩ := hE
  cases B with
  | nil =>
      cases E with
      | nil => rfl
      | cons q E => cases h
  | cons p B =>
      cases E with
      | nil => cases h
      | cons q E =>
          rw [← SortedMap.find_of_split hA.symm, ← SortedMap.find_of_split hA'.symm,
            Position.element.inj h]

theorem Follows.valid (h : Follows m k p) : Valid m p := by
  rcases h with ⟨rfl, -⟩ | ⟨k', rfl, -, hstored, -⟩
  · exact ⟨fun h => (nomatch h), fun k' h => nomatch h⟩
  · refine ⟨fun h => (nomatch h), ?_⟩
    rintro _ ⟨⟩
    exact hstored

/-- The pairs from the next one on stand for the position behind. -/
theorem follows_of_suffix {pair : K × V} (h : pair :: B <:+ m.entries) :
    Follows m pair.1 (of B) ∧ B <:+ m.entries ∧ m.get? pair.1 = some pair.2 := by
  obtain ⟨A, hA⟩ := h
  obtain ⟨-, hB⟩ := SortedMap.lt_of_split hA.symm
  have hsuffix : B <:+ m.entries := ⟨A ++ [pair], by rw [← hA, List.append_assoc]; rfl⟩
  have hmem : ∀ k', (m.get? k').isSome → pair.1 < k' → ∃ v', (k', v') ∈ B := by
    intro k' hk' hlt
    obtain ⟨v', hv'⟩ := Option.isSome_iff_exists.mp hk'
    have hin := (SortedMap.le_iff_of_split hA.symm (SortedMap.mem_of_get? hv')).mp (le_of_lt hlt)
    rcases List.mem_cons.mp hin with heq | hin
    · exact absurd (congrArg Prod.fst heq) (ne_of_gt hlt)
    · exact ⟨v', hin⟩
  refine ⟨?_, hsuffix, SortedMap.get?_of_mem (hA ▸ List.mem_append_right A List.mem_cons_self)⟩
  cases B with
  | nil =>
      refine .inl ⟨rfl, ?_⟩
      intro k' hk'
      by_contra hlt
      obtain ⟨v', hv'⟩ := hmem k' hk' (not_le.mp hlt)
      cases hv'
  | cons next rest =>
      have hstored := SortedMap.get?_of_mem (hsuffix.subset List.mem_cons_self)
      refine .inr ⟨next.1, rfl, hB next List.mem_cons_self, Option.isSome_iff_exists.mpr ⟨_, hstored⟩, ?_⟩
      intro k'' hk'' hlt
      obtain ⟨v', hv'⟩ := hmem k'' hk'' hlt
      obtain ⟨A', hA'⟩ := hsuffix
      rcases List.mem_cons.mp hv' with heq | hrest
      · exact le_of_eq (congrArg Prod.fst heq).symm
      · exact le_of_lt ((SortedMap.lt_of_split hA'.symm).2 _ hrest)

end

end Position

end Prog
