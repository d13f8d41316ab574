/-
# `Metrics.Records` — from the files to the metrics

What the benchmarks do: `LoadData` reads the two files, and the metrics are taken of the map that
it returns.  For files that the generator writes they are those of the records, whatever the
addresses show (`Metrics` says what becomes of the zips).

    records of users       the mean of their ages
    records of payments    the mean of their amounts, and the variance
-/
import Nyctomek.Metrics.Averages

namespace Nyctomek.Metrics

open Prog

section
variable {Time : Type} {parse : Bytes → Time} {records : List UserRecord}
  {payments : List PaymentRecord} {loaded : UserMap Time}

/-- The amount of a payment, in dollars. -/
def PaymentRecord.exact (p : PaymentRecord) : ℚ := p.cents.toInt / 100

theorem exact_loaded {p : PaymentRecord} (hcents : 0 ≤ p.cents) :
    (p.loaded parse).amount.exact = p.exact := by
  have hrecorded : (p.loaded parse).IsRecorded parse p := PaymentRecord.isRecorded_loaded hcents
  have hcast : (((p.loaded parse).amount.dollars.toNat * 100
      + (p.loaded parse).amount.cents.toNat : Nat) : ℚ) = (p.cents.toInt : ℚ) := by
    rw [← hrecorded.amount]
    exact (Int.cast_natCast _).symm
  rw [PaymentRecord.exact, ← hcast, DollarAmount.exact]
  push_cast
  ring

/-- The entries of the map that `LoadData` returns, in the order of the file. -/
def loadedEntries (parse : Bytes → Time) (records : List UserRecord)
    (payments : List PaymentRecord) : Visits Time :=
  records.map fun r => (r.id, (r.loaded Time).pay parse r.id payments)

theorem enumerates_loaded (hids : (records.map UserRecord.id).Nodup)
    (huser : ∀ r ∈ records, loaded r.id = some ((r.loaded Time).pay parse r.id payments))
    (hothers : ∀ id, id ∉ records.map UserRecord.id → loaded id = none) :
    Enumerates (loadedEntries parse records payments) loaded := by
  constructor
  · rwa [loadedEntries, List.map_map]
  · intro id user
    rw [loadedEntries, List.mem_map]
    constructor
    · rintro ⟨r, hr, heq⟩
      obtain ⟨rfl, rfl⟩ := Prod.mk.inj heq
      exact huser r hr
    · intro hload
      by_cases hid : id ∈ records.map UserRecord.id
      · obtain ⟨r, hr, rfl⟩ := List.mem_map.mp hid
        exact ⟨r, hr, congrArg (Prod.mk r.id) (Option.some.inj ((huser r hr).symm.trans hload))⟩
      · rw [hothers id hid] at hload
        cases hload

theorem ages_loaded (parse : Bytes → Time) (records : List UserRecord)
    (payments : List PaymentRecord) : ages (loadedEntries parse records payments)
      = records.map fun r => (r.age.toInt : ℚ) := by
  rw [ages, loadedEntries, List.map_map]
  rfl

/-- **Every payment is with one user.** -/
theorem amounts_loaded (parse : Bytes → Time) (hids : (records.map UserRecord.id).Nodup)
    (hcents : ∀ p ∈ payments, 0 ≤ p.cents)
    (hlisted : ∀ p ∈ payments, p.userId ∈ records.map UserRecord.id) :
    (amounts (loadedEntries parse records payments)).Perm (payments.map PaymentRecord.exact) := by
  have hgroup : ∀ r ∈ records, (((r.loaded Time).pay parse r.id payments).payments.map
      fun p => p.amount.exact)
      = (payments.filter fun p => p.userId = r.id).map PaymentRecord.exact := by
    intro r _
    have hpaid : ((r.loaded Time).pay parse r.id payments).payments
        = (payments.filter fun p => p.userId = r.id).map (PaymentRecord.loaded parse) := rfl
    rw [hpaid, List.map_map]
    exact List.map_congr_left fun p hp => exact_loaded (hcents p (List.mem_of_mem_filter hp))
  have hgroups : amounts (loadedEntries parse records payments)
      = ((records.map UserRecord.id).flatMap fun id =>
          payments.filter fun p => p.userId = id).map PaymentRecord.exact := by
    rw [amounts, loadedEntries, List.flatMap_map, List.map_flatMap, List.flatMap_map]
    exact List.flatMap_congr hgroup
  rw [hgroups]
  exact (flatMap_filter_perm PaymentRecord.userId hids hlisted).map _

/-- **The metrics of the records**: for files with users that have ids of their own, and some
payments, of listed users and not negative, `LoadData` returns a map, and in whatever order this
is visited the three metrics are those of what has been recorded. -/
theorem metrics_of_records (parse : Bytes → Time) (records : List UserRecord)
    (payments : List PaymentRecord) (hids : (records.map UserRecord.id).Nodup)
    (hpayments : payments ≠ []) (hcents : ∀ p ∈ payments, 0 ≤ p.cents)
    (hlisted : ∀ p ∈ payments, p.userId ∈ records.map UserRecord.id) :
    ∃ users, loadData parse (records.map UserRecord.columns)
        (payments.map PaymentRecord.columns) = .ok users ∧
      0 < records.length ∧ 0 < payments.length ∧
      ∀ order order' : Visits Time, Enumerates order users → Enumerates order' users →
        AverageAge order
            = (records.map fun r => (r.age.toInt : ℚ)).sum / records.length ∧
          AveragePaymentAmount order
            = (payments.map PaymentRecord.exact).sum / payments.length ∧
          meanSquaredDiff order order' = variance (payments.map PaymentRecord.exact) := by
  obtain ⟨loaded, hload, huser, hothers⟩ :=
    loadData_columns parse records payments hids hlisted
  have hentries := enumerates_loaded hids huser hothers
  have hamounts := amounts_loaded parse hids hcents hlisted
  have hpos : 0 < records.length := by
    obtain ⟨p, hp⟩ := List.exists_mem_of_ne_nil _ hpayments
    obtain ⟨r, hr, -⟩ := List.mem_map.mp (hlisted p hp)
    exact List.length_pos_of_mem hr
  refine ⟨loaded, hload, hpos, List.length_pos_iff.mpr hpayments, ?_⟩
  intro order order' horder horder'
  have hperm := (amounts_perm (horder.perm hentries)).trans hamounts
  have hperm' := (amounts_perm (horder'.perm hentries)).trans hamounts
  refine ⟨?_, ?_, ?_⟩
  · rw [averageAge_eq, mean_perm (ages_perm (horder.perm hentries)), ages_loaded, mean,
      List.length_map]
  · rw [averagePaymentAmount_eq, mean_perm hperm, mean, List.length_map]
  · rw [meanSquaredDiff_eq order order' (mean_perm (hperm.trans hperm'.symm)),
      variance_perm hperm']

end

/-- Two users, of whom one has paid. -/
theorem metrics_of_records_two : ∃ users, loadData newYear2010
    [(annLee 12345).columns, (UserRecord.mk 8 [] 50 [] 0).columns]
    [newYearPayment.columns, (PaymentRecord.mk 55 [] 7).columns] = .ok users ∧
      ∀ order, Enumerates order users →
        AverageAge order = 40 ∧ AveragePaymentAmount order = 62 := by
  obtain ⟨users, hload, -, -, hmetrics⟩ := metrics_of_records newYear2010
    [annLee 12345, ⟨8, [], 50, [], 0⟩] [newYearPayment, ⟨55, [], 7⟩] (by decide) (by decide)
    (by decide) (by decide)
  refine ⟨users, hload, ?_⟩
  intro order horder
  obtain ⟨hage, hamount, -⟩ := hmetrics order order horder horder
  have hages : [annLee 12345, ⟨8, [], 50, [], 0⟩].map (fun r => (r.age.toInt : ℚ)) = [30, 50] := rfl
  have hamounts : [newYearPayment, ⟨55, [], 7⟩].map PaymentRecord.exact
      = [12345 / 100, 55 / 100] := rfl
  rw [hages] at hage
  rw [hamounts] at hamount
  refine ⟨hage.trans ?_, hamount.trans ?_⟩
  · norm_num
  · norm_num

end Nyctomek.Metrics
