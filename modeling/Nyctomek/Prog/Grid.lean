/-
# `Prog.Grid` — the items of a list, laid out in columns

Two nested loops over rows and columns meet the items of a list that was cut into
columns, `rows` items each: item `c * rows + r` stands in row `r` of column `c`.
Row by row every item within the grid is met once (`columnMajor_perm`); the rows that
come of it have the list in their columns (`readColumns_grid`).
-/
import Mathlib.Data.Multiset.Bind

namespace Prog

variable {α β γ : Type}

/-- The order of two nested loops is a matter of the order of the output. -/
theorem flatMap_swap_perm (as : List α) (bs : List β) (f : α → β → List γ) :
    (as.flatMap fun a => bs.flatMap fun b => f a b).Perm
      (bs.flatMap fun b => as.flatMap fun a => f a b) := by
  have hswap := Multiset.bind_bind (as : Multiset α) (bs : Multiset β)
    (f := fun a b => (f a b : Multiset γ))
  simp only [Multiset.coe_bind] at hswap
  exact Multiset.coe_eq_coe.mp hswap

/-- The numbers below a product, one column after the other. -/
theorem flatMap_range_mul (columns rows : Nat) :
    ((List.range columns).flatMap fun c => (List.range rows).map (c * rows + ·))
      = List.range (columns * rows) := by
  induction columns with
  | zero => simp
  | succ c ih =>
      rw [List.range_succ, List.flatMap_append, ih, List.flatMap_singleton, Nat.succ_mul,
        List.range_add]

/-- A loop that looks the items up one by one. -/
theorem flatMap_range_getElem? (l : List α) (n : Nat) :
    ((List.range n).flatMap fun i => l[i]?.toList) = l.take n := by
  induction n with
  | zero => simp
  | succ n ih =>
      rw [List.range_succ, List.flatMap_append, ih, List.flatMap_singleton, List.take_add_one]

/-- **Row by row** through a list in columns every item of the grid is met once. -/
theorem columnMajor_perm (l : List α) (rows columns : Nat) :
    ((List.range rows).flatMap fun r => (List.range columns).flatMap fun c =>
      l[c * rows + r]?.toList).Perm (l.take (columns * rows)) := by
  refine (flatMap_swap_perm _ _ _).trans (List.Perm.of_eq ?_)
  rw [← flatMap_range_getElem?, ← flatMap_range_mul, List.flatMap_assoc]
  simp only [List.flatMap_map]

/-! ## The rows of the grid -/

/-- The items that one row meets. -/
def gridRow (l : List α) (rows columns r : Nat) : List α :=
  (List.range columns).filterMap fun c => l[c * rows + r]?

def grid (l : List α) (rows columns : Nat) : List (List α) :=
  (List.range rows).map (gridRow l rows columns)

/-- Rows of items, read top to bottom and then left to right. -/
def readColumns (columns : Nat) (rows : List (List α)) : List α :=
  (List.range columns).flatMap fun c => rows.filterMap (·[c]?)

variable {l : List α} {rows columns : Nat}

theorem length_grid : (grid l rows columns).length = rows := by
  simp [grid]

theorem length_gridRow_le (l : List α) (rows columns r : Nat) :
    (gridRow l rows columns r).length ≤ columns :=
  (List.length_filterMap_le _ _).trans (Nat.le_of_eq List.length_range)

theorem flatten_grid_perm (l : List α) (rows columns : Nat) :
    (grid l rows columns).flatten.Perm (l.take (columns * rows)) := by
  refine (List.Perm.of_eq ?_).trans (columnMajor_perm l rows columns)
  rw [grid, ← List.flatMap_def]
  exact List.flatMap_congr fun r _ => List.filterMap_eq_flatMap_toList _ _

/-- What is found at ever greater indices stands together at the front. -/
theorem getElem?_filterMap_range (l : List α) {f : Nat → Nat} (hf : Monotone f) (n c : Nat) :
    ((List.range n).filterMap fun i => l[f i]?)[c]? = if c < n then l[f c]? else none := by
  induction n generalizing f c with
  | zero => simp
  | succ n ih =>
      rw [List.range_succ_eq_map, List.filterMap_cons, List.filterMap_map]
      have hsucc : Monotone fun i => f (i + 1) := fun i j hij => hf (Nat.succ_le_succ hij)
      cases hfirst : l[f 0]? with
      | none =>
          -- and so nothing is found behind it
          have hnone : ∀ i, l[f i]? = none := by
            intro i
            rw [List.getElem?_eq_none_iff] at hfirst ⊢
            exact hfirst.trans (hf (Nat.zero_le i))
          simp [hnone]
      | some a =>
          cases c with
          | zero => simp [hfirst]
          | succ c => simpa using ih hsucc c

theorem getElem?_gridRow (l : List α) (rows columns r c : Nat) :
    (gridRow l rows columns r)[c]? = if c < columns then l[c * rows + r]? else none :=
  getElem?_filterMap_range l
    (fun _ _ h => Nat.add_le_add_right (Nat.mul_le_mul_right rows h) r) columns c

/-- **Top to bottom and left to right** the rows have the list. -/
theorem readColumns_grid (l : List α) (rows columns : Nat) :
    readColumns columns (grid l rows columns) = l.take (columns * rows) := by
  rw [← flatMap_range_getElem?, ← flatMap_range_mul, List.flatMap_assoc, readColumns]
  refine List.flatMap_congr ?_
  intro c hc
  rw [grid, List.filterMap_map, List.filterMap_eq_flatMap_toList, List.flatMap_map]
  refine List.flatMap_congr ?_
  intro r _
  rw [Function.comp_apply, getElem?_gridRow, if_pos (List.mem_range.mp hc)]

end Prog
