/-
# `Prog.Search` — the first occurrence of a pattern

What `bytes.Index`, `strstr` and their like return: the first position at which
the pattern stands, if there is one.
-/
import Mathlib.Data.List.Infix

namespace Prog

variable {α : Type} [DecidableEq α]

/-- The first position of `pattern` in a list. -/
def find (pattern : List α) : List α → Option Nat
  | [] => if pattern = [] then some 0 else none
  | a :: l => if pattern <+: a :: l then some 0 else (find pattern l).map (· + 1)

variable {pattern l : List α} {i : Nat}

theorem find_eq_none : find pattern l = none ↔ ¬pattern <:+: l := by
  induction l with
  | nil => simp [find]
  | cons a l ih =>
      rw [find, List.infix_cons_iff, not_or]
      by_cases hp : pattern <+: a :: l
      · simp [hp]
      · rw [if_neg hp, Option.map_eq_none_iff, ih]
        exact ⟨fun h => ⟨hp, h⟩, fun h => h.2⟩

/-- Where a search ends: the pattern stands there, and at no place before. -/
theorem find_eq_some : find pattern l = some i ↔
    ∃ pre suf, l = pre ++ (pattern ++ suf) ∧ pre.length = i ∧
      ∀ j, j < i → ¬pattern <+: l.drop j := by
  induction l generalizing i with
  | nil =>
      rw [find]
      split
      · rename_i hpat
        constructor
        · intro h
          cases Option.some.inj h
          exact ⟨[], [], by simp [hpat], rfl, fun j hj => absurd hj (Nat.not_lt_zero j)⟩
        · rintro ⟨pre, suf, hl, hlen, -⟩
          have hpre : pre = [] := (List.append_eq_nil_iff.mp hl.symm).1
          rw [← hlen, hpre, List.length_nil]
      · rename_i hpat
        refine ⟨nofun, ?_⟩
        rintro ⟨pre, suf, hl, -⟩
        exact absurd (List.append_eq_nil_iff.mp (List.append_eq_nil_iff.mp hl.symm).2).1 hpat
  | cons a l ih =>
      rw [find]
      split
      · rename_i hp
        obtain ⟨suf, hsuf⟩ := hp
        constructor
        · intro h
          cases Option.some.inj h
          exact ⟨[], suf, hsuf.symm, rfl, fun j hj => absurd hj (Nat.not_lt_zero j)⟩
        · rintro ⟨pre, suf', -, hlen, hfirst⟩
          cases i with
          | zero => rfl
          | succ i => exact absurd ⟨suf, hsuf⟩ (hfirst 0 (Nat.succ_pos i))
      · rename_i hp
        rw [Option.map_eq_some_iff]
        constructor
        · rintro ⟨j, hj, rfl⟩
          obtain ⟨pre, suf, hl, hlen, hfirst⟩ := ih.mp hj
          refine ⟨a :: pre, suf, by rw [hl, List.cons_append], by rw [List.length_cons, hlen], ?_⟩
          intro k hk
          cases k with
          | zero => exact hp
          | succ k => exact hfirst k (Nat.lt_of_succ_lt_succ hk)
        · rintro ⟨pre, suf, hl, hlen, hfirst⟩
          cases pre with
          | nil => exact absurd ⟨suf, hl.symm⟩ hp
          | cons b pre =>
              obtain ⟨rfl, htail⟩ := List.cons.inj (hl.trans (List.cons_append ..))
              refine ⟨pre.length, ih.mpr ⟨pre, suf, htail, rfl, ?_⟩, hlen⟩
              intro k hk
              exact hfirst (k + 1) (by rw [← hlen, List.length_cons]; omega)

/-- What is found ends inside. -/
theorem find_add_length_le (h : find pattern l = some i) : i + pattern.length ≤ l.length := by
  obtain ⟨pre, suf, rfl, rfl, -⟩ := find_eq_some.mp h
  simp only [List.length_append]
  omega

/-- More behind the place does not matter. -/
theorem find_append (h : find pattern l = some i) (r : List α) :
    find pattern (l ++ r) = some i := by
  have hle := find_add_length_le h
  obtain ⟨pre, suf, hl, hlen, hfirst⟩ := find_eq_some.mp h
  refine find_eq_some.mpr ⟨pre, suf ++ r, by rw [hl]; simp, hlen, ?_⟩
  intro j hj hprefix
  rw [List.drop_append_of_le_length (by omega)] at hprefix
  apply hfirst j hj
  refine List.prefix_of_prefix_length_le hprefix (List.prefix_append _ r) ?_
  rw [List.length_drop]
  omega

/-- With less than that nothing is found. -/
theorem find_take {k : Nat} (h : find pattern l = some i) (hk : k < i + pattern.length) :
    find pattern (l.take k) = none := by
  cases hj : find pattern (l.take k) with
  | none => rfl
  | some j =>
      have hle := find_add_length_le hj
      have hfound := find_append hj (l.drop k)
      rw [List.take_append_drop, h] at hfound
      cases Option.some.inj hfound
      rw [List.length_take] at hle
      omega

end Prog
