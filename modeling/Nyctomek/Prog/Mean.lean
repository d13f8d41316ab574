/-
# `Prog.Mean` — averages, one value at a time

The mean of a list of values, and their variance, as a population: the mean of the
squared differences from the mean.  Neither depends on the order of the values.

A running mean keeps the average of the values so far and their number, and never
their sum; `foldl_runningStep` says that it is the mean of what has been seen.
-/
import Mathlib.Algebra.BigOperators.Group.List.Basic
import Mathlib.Algebra.CharZero.Defs
import Mathlib.Tactic.FieldSimp
import Mathlib.Tactic.Ring

namespace Prog

variable {K : Type} [Field K] {past xs ys : List K}

def mean (xs : List K) : K := xs.sum / xs.length

def variance (xs : List K) : K := mean (xs.map fun x => (x - mean xs) * (x - mean xs))

theorem mean_perm (h : xs.Perm ys) : mean xs = mean ys := by
  rw [mean, mean, h.sum_eq, h.length_eq]

theorem variance_perm (h : xs.Perm ys) : variance xs = variance ys := by
  rw [variance, variance, mean_perm h]
  exact mean_perm (h.map _)

/-- The average and the number of the values, with one value more. -/
def runningStep (acc : K × K) (x : K) : K × K :=
  let count := acc.2 + 1
  (acc.1 + (x - acc.1) / count, count)

section
variable [CharZero K]

theorem mean_mul_length (xs : List K) : mean xs * xs.length = xs.sum := by
  cases xs with
  | nil => simp only [mean, List.sum_nil, List.length_nil, Nat.cast_zero, mul_zero]
  | cons x xs =>
      have hlength : ((x :: xs).length : K) ≠ 0 := Nat.cast_ne_zero.mpr (Nat.succ_ne_zero _)
      exact div_mul_cancel₀ _ hlength

/-- **One step** of the average. -/
theorem runningStep_mean (past : List K) (x : K) :
    runningStep (mean past, (past.length : K)) x
      = (mean (past ++ [x]), ((past ++ [x]).length : K)) := by
  have hsum := mean_mul_length past
  have hlength : (past.length : K) + 1 ≠ 0 := Nat.cast_add_one_ne_zero _
  have hcount : ((past ++ [x]).length : K) = past.length + 1 := by
    rw [List.length_append, List.length_singleton, Nat.cast_add, Nat.cast_one]
  have hmean : mean (past ++ [x]) = (mean past * past.length + x) / (past.length + 1) := by
    rw [hsum, mean, hcount, List.sum_append, List.sum_singleton]
  rw [runningStep, hmean, hcount, Prod.mk.injEq]
  refine ⟨?_, rfl⟩
  field_simp
  ring

/-- **The whole loop**: the average is the mean of all values up to there. -/
theorem foldl_runningStep (past xs : List K) :
    xs.foldl runningStep (mean past, (past.length : K))
      = (mean (past ++ xs), ((past ++ xs).length : K)) := by
  induction xs generalizing past with
  | nil => rw [List.append_nil, List.foldl_nil]
  | cons x xs ih =>
      rw [List.foldl_cons, runningStep_mean, ih, List.append_assoc]
      rfl

/-- From nothing on. -/
theorem foldl_runningStep_zero (xs : List K) :
    xs.foldl runningStep (0, 0) = (mean xs, (xs.length : K)) := by
  have hnil : ((0 : K), (0 : K)) = (mean [], (([] : List K).length : K)) := by
    simp only [mean, List.sum_nil, zero_div, List.length_nil, Nat.cast_zero]
  rw [hnil, foldl_runningStep, List.nil_append]

end

end Prog
