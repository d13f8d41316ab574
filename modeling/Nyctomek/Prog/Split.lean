/-
# `Prog.Split` — a list split after each delimiter

What `strings.SplitAfter` and its like return, with what is left behind the last
delimiter kept apart.  A delimiter is noticed at its last item, so that a list can be
split in parts, each from the piece that the one before has left (`splitFrom_append`).
-/
import Mathlib.Data.List.Infix

namespace Prog

variable {α : Type} [DecidableEq α]

/-- The pieces that end with a delimiter, and what is left, if `piece` has been read
already. -/
def splitFrom (delimiter : List α) : (piece : List α) → List α → List (List α) × List α
  | piece, [] => ([], piece)
  | piece, a :: l =>
      if delimiter <:+ piece ++ [a] then
        let rest := splitFrom delimiter [] l
        ((piece ++ [a]) :: rest.1, rest.2)
      else splitFrom delimiter (piece ++ [a]) l

def splitAfter (delimiter l : List α) : List (List α) × List α := splitFrom delimiter [] l

variable {delimiter piece l : List α} {a : α}

theorem splitFrom_of_suffix (h : delimiter <:+ piece ++ [a]) :
    splitFrom delimiter piece (a :: l)
      = ((piece ++ [a]) :: (splitFrom delimiter [] l).1, (splitFrom delimiter [] l).2) := by
  rw [splitFrom, if_pos h]

theorem splitFrom_of_not_suffix (h : ¬delimiter <:+ piece ++ [a]) :
    splitFrom delimiter piece (a :: l) = splitFrom delimiter (piece ++ [a]) l := by
  rw [splitFrom, if_neg h]

/-- A list in two parts. -/
theorem splitFrom_append (delimiter piece l l' : List α) : splitFrom delimiter piece (l ++ l')
    = ((splitFrom delimiter piece l).1
        ++ (splitFrom delimiter (splitFrom delimiter piece l).2 l').1,
      (splitFrom delimiter (splitFrom delimiter piece l).2 l').2) := by
  induction l generalizing piece with
  | nil => rfl
  | cons a l ih =>
      rw [List.cons_append]
      by_cases h : delimiter <:+ piece ++ [a]
      · rw [splitFrom_of_suffix h, splitFrom_of_suffix h, ih, List.cons_append]
      · rw [splitFrom_of_not_suffix h, splitFrom_of_not_suffix h, ih]

/-- Nothing is lost. -/
theorem splitFrom_flatten (delimiter piece l : List α) :
    (splitFrom delimiter piece l).1.flatten ++ (splitFrom delimiter piece l).2 = piece ++ l := by
  induction l generalizing piece with
  | nil => simp [splitFrom]
  | cons a l ih =>
      by_cases h : delimiter <:+ piece ++ [a]
      · rw [splitFrom_of_suffix h, List.flatten_cons, List.append_assoc, ih]
        simp
      · rw [splitFrom_of_not_suffix h, ih]
        simp

/-- If nothing comes of a list, it is empty. -/
theorem eq_nil_of_splitFrom (h : splitFrom delimiter piece l = ([], [])) : piece = [] ∧ l = [] := by
  have hflatten := splitFrom_flatten delimiter piece l
  rw [h] at hflatten
  exact List.append_eq_nil_iff.mp hflatten.symm

end Prog
