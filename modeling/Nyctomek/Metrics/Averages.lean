/-
# `Metrics.Averages` — the three metrics, in exact arithmetic

`AverageAge` and `AveragePaymentAmount` keep a running average, a division for each value;
`StdDevPaymentAmount` adds up squared differences from the average payment.  Each ranges
over the map of users in an order of its own, so that the last of them sees two.

    float64(n)                         the number itself
    for _, u := range users            over the entries in some order

In rational numbers the order does not matter.
-/
import Mathlib.Algebra.Order.Field.Rat
import Mathlib.Tactic.NormNum
import Nyctomek.Metrics
import Nyctomek.Prog.Mean

namespace Nyctomek.Metrics

open Prog

/-- `float64(p.amount.dollars) + float64(p.amount.cents)/100` -/
def DollarAmount.exact (amount : DollarAmount) : ℚ :=
  amount.dollars.toNat + amount.cents.toNat / 100

section
variable {Time : Type}

/-- The entries of a map, in the order in which `range` visits them. -/
abbrev Visits (Time : Type) := List (UserId × User Time)

def AverageAge (order : Visits Time) : ℚ :=
  let (average, _) := order.foldl (fun (average, count) (_, u) =>
    let count := count + 1
    (average + ((u.age.toInt : ℚ) - average) / count, count)) ((0, 0) : ℚ × ℚ)
  average

def AveragePaymentAmount (order : Visits Time) : ℚ :=
  let (average, _) := order.foldl (fun acc (_, u) =>
    u.payments.foldl (fun (average, count) p =>
      let count := count + 1
      let amount := p.amount.exact
      (average + (amount - average) / count, count)) acc) ((0, 0) : ℚ × ℚ)
  average

/-- `squaredDiffs / count` in `StdDevPaymentAmount`, which returns the square root of it; the
payments are averaged in one order and compared with the average in another. -/
def meanSquaredDiff (averaged order : Visits Time) : ℚ :=
  let mean := AveragePaymentAmount averaged
  let (squaredDiffs, count) := order.foldl (fun acc (_, u) =>
    u.payments.foldl (fun (squaredDiffs, count) p =>
      let count := count + 1
      let amount := p.amount.exact
      let diff := amount - mean
      (squaredDiffs + diff * diff, count)) acc) ((0, 0) : ℚ × ℚ)
  squaredDiffs / count

/-! ## What they are to be -/

def ages (entries : Visits Time) : List ℚ := entries.map fun e => (e.2.age.toInt : ℚ)

def amounts (entries : Visits Time) : List ℚ :=
  entries.flatMap fun e => e.2.payments.map fun p => p.amount.exact

theorem averageAge_eq (order : Visits Time) : AverageAge order = mean (ages order) := by
  have hloop : AverageAge order = ((ages order).foldl runningStep (0, 0)).1 := by
    rw [ages, List.foldl_map]
    rfl
  rw [hloop, foldl_runningStep_zero]

theorem averagePaymentAmount_eq (order : Visits Time) :
    AveragePaymentAmount order = mean (amounts order) := by
  have hloop : AveragePaymentAmount order = ((amounts order).foldl runningStep (0, 0)).1 := by
    rw [amounts, List.foldl_flatMap]
    simp only [List.foldl_map]
    rfl
  rw [hloop, foldl_runningStep_zero]

/-- Summing up and counting. -/
theorem foldl_sum_count (f : ℚ → ℚ) (xs : List ℚ) (sum count : ℚ) :
    xs.foldl (fun acc x => (acc.1 + f x, acc.2 + 1)) (sum, count)
      = (sum + (xs.map f).sum, count + xs.length) := by
  induction xs generalizing sum count with
  | nil =>
      simp only [List.foldl_nil, List.map_nil, List.sum_nil, List.length_nil, Nat.cast_zero,
        add_zero]
  | cons x xs ih =>
      rw [List.foldl_cons, ih, List.map_cons, List.sum_cons, List.length_cons, Nat.cast_add,
        Nat.cast_one, Prod.mk.injEq]
      constructor <;> ring

theorem meanSquaredDiff_eq (averaged order : Visits Time)
    (h : mean (amounts averaged) = mean (amounts order)) :
    meanSquaredDiff averaged order = variance (amounts order) := by
  have hloop : meanSquaredDiff averaged order =
      let acc := (amounts order).foldl (fun acc x =>
        (acc.1 + (x - AveragePaymentAmount averaged) * (x - AveragePaymentAmount averaged),
          acc.2 + 1)) (0, 0)
      acc.1 / acc.2 := by
    rw [amounts, List.foldl_flatMap]
    simp only [List.foldl_map]
    rfl
  rw [hloop, averagePaymentAmount_eq, h]
  simp only [foldl_sum_count (fun x => (x - mean (amounts order)) * (x - mean (amounts order))),
    zero_add]
  rw [variance, mean, mean, List.length_map]

theorem ages_perm {order order' : Visits Time} (h : order.Perm order') :
    (ages order).Perm (ages order') :=
  h.map _

theorem amounts_perm {order order' : Visits Time} (h : order.Perm order') :
    (amounts order).Perm (amounts order') :=
  h.flatMap_right _

/-- A payment is among the amounts, and its user among the ages. -/
theorem amounts_ne_nil {users : UserMap Time} {entries : Visits Time}
    (hentries : Enumerates entries users)
    (hpayment : ∃ id user, users id = some user ∧ user.payments ≠ []) :
    ages entries ≠ [] ∧ amounts entries ≠ [] := by
  obtain ⟨id, user, huser, hne⟩ := hpayment
  have hmem : (id, user) ∈ entries := (hentries.mem id user).mpr huser
  constructor
  · exact List.ne_nil_of_mem (List.mem_map_of_mem hmem)
  · obtain ⟨p, hp⟩ := List.exists_mem_of_ne_nil _ hne
    exact List.ne_nil_of_mem (List.mem_flatMap_of_mem hmem (List.mem_map_of_mem hp))

/-- **The metrics do not depend on the order** in which the users are visited: they are the
mean age, the mean amount and, below the square root, the variance of the amounts. -/
theorem averages_eq {users : UserMap Time}
    {entries ageOrder amountOrder meanOrder diffOrder : Visits Time}
    (hentries : Enumerates entries users) (hage : Enumerates ageOrder users)
    (hamount : Enumerates amountOrder users) (hmean : Enumerates meanOrder users)
    (hdiff : Enumerates diffOrder users)
    (hpayment : ∃ id user, users id = some user ∧ user.payments ≠ []) :
    (ages entries ≠ [] ∧ amounts entries ≠ []) ∧
      AverageAge ageOrder = (ages entries).sum / (ages entries).length ∧
      AveragePaymentAmount amountOrder = (amounts entries).sum / (amounts entries).length ∧
      meanSquaredDiff meanOrder diffOrder = variance (amounts entries) := by
  have hmeans : mean (amounts meanOrder) = mean (amounts diffOrder) :=
    mean_perm (amounts_perm (hmean.perm hdiff))
  refine ⟨amounts_ne_nil hentries hpayment, ?_, ?_, ?_⟩
  · rw [averageAge_eq, mean_perm (ages_perm (hage.perm hentries)), mean]
  · rw [averagePaymentAmount_eq, mean_perm (amounts_perm (hamount.perm hentries)), mean]
  · rw [meanSquaredDiff_eq _ _ hmeans, variance_perm (amounts_perm (hdiff.perm hentries))]

end

/-- A user of 30 who paid 1.50, and one of 50 who paid 2.50. -/
def twoUsers : Visits Unit :=
  [(1, ⟨1, [], 30, ⟨[], 0⟩, [⟨⟨1, 50⟩, ()⟩]⟩), (2, ⟨2, [], 50, ⟨[], 0⟩, [⟨⟨2, 50⟩, ()⟩]⟩)]

theorem averages_twoUsers :
    AverageAge twoUsers.reverse = 40 ∧ AveragePaymentAmount twoUsers.reverse = 2 ∧
      meanSquaredDiff twoUsers twoUsers.reverse = 1 / 4 := by
  have hentries : Enumerates twoUsers (ofEntries twoUsers) := enumerates_ofEntries (by decide)
  have hreverse : Enumerates twoUsers.reverse (ofEntries twoUsers) :=
    hentries.of_perm (List.reverse_perm twoUsers).symm
  obtain ⟨-, hage, hamount, hdiff⟩ := averages_eq hentries hreverse hreverse hentries hreverse
    ⟨1, _, (hentries.mem 1 _).mp List.mem_cons_self, List.cons_ne_nil _ _⟩
  have hages : ages twoUsers = [30, 50] := rfl
  have hamounts : amounts twoUsers = [3 / 2, 5 / 2] := by
    show [(1 + 50 / 100 : ℚ), 2 + 50 / 100] = [3 / 2, 5 / 2]
    norm_num
  rw [hages] at hage
  rw [hamounts] at hamount hdiff
  refine ⟨hage.trans ?_, hamount.trans ?_, hdiff.trans ?_⟩
  · norm_num
  · norm_num
  · norm_num [variance, mean]

end Nyctomek.Metrics
