/-
# `Metrics` — users and payments, written as CSV and read back

The generator writes the records of users and of payments by columns, and `LoadData` takes
them by columns again, into a map of users with their payments:

    users.csv       0 id       1 name    2 age    3 address    4 zip
    payments.csv    0 cents    1 time    2 user id

The text of the files is left to `encoding/csv`: a line here is the list of its columns.
`LoadData` takes the zip from column 3, and so finds it only where the address shows it
(`loadData_iff`).
-/
import Mathlib.Data.List.Forall2
import Nyctomek.Prog.Decimal
import Nyctomek.Prog.Entries
import Nyctomek.Prog.Loop

namespace Nyctomek.Metrics

open Prog

abbrev UserId := Int64

structure Address where
  fullAddress : Bytes
  zip : Int64
  deriving DecidableEq, Repr

structure DollarAmount where
  dollars : UInt64
  cents : UInt64
  deriving DecidableEq, Repr

structure Payment (Time : Type) where
  amount : DollarAmount
  time : Time
  deriving DecidableEq, Repr

structure User (Time : Type) where
  id : UserId
  name : Bytes
  age : Int64
  address : Address
  payments : List (Payment Time)
  deriving DecidableEq, Repr

/-- A map to users; each pointer in the source's map is to a `User` of its own. -/
abbrev UserMap (Time : Type) := UserId → Option (User Time)

/-- How `LoadData` panics. -/
inductive RuntimeError where
  | indexOutOfRange (index length : Nat)
  | nilDereference
  deriving DecidableEq, Repr

/-- `line[i]`. -/
def column (columns : List Bytes) (i : Nat) : Except RuntimeError Bytes :=
  match columns[i]? with
  | some text => .ok text
  | none => .error (.indexOutOfRange i columns.length)

section
variable {Time : Type}

/-- One line of `users.csv`. -/
def loadUser (users : UserMap Time) (line : List Bytes) : Except RuntimeError (UserMap Time) := do
  let id := (atoi (← column line 0)).1
  let name ← column line 1
  let age := (atoi (← column line 2)).1
  let address ← column line 3
  let zip := (atoi (← column line 3)).1
  .ok (assign users id ⟨id, name, age, ⟨address, zip⟩, []⟩)

/-- One line of `payments.csv`; `parse` is the time that `time.Parse` makes of a text, its
error ignored. -/
def loadPayment (parse : Bytes → Time) (users : UserMap Time) (line : List Bytes) :
    Except RuntimeError (UserMap Time) := do
  let userId := (atoi (← column line 2)).1
  let paymentCents := (atoi (← column line 0)).1
  let datetime := parse (← column line 1)
  match users userId with
  | none => .error .nilDereference
  | some user =>
      let amount : DollarAmount := ⟨(paymentCents / 100).toUInt64, (paymentCents % 100).toUInt64⟩
      .ok (assign users userId { user with payments := user.payments ++ [⟨amount, datetime⟩] })

/-- `LoadData`, from the lines of the two files on. -/
def loadData (parse : Bytes → Time) (userLines paymentLines : List (List Bytes)) :
    Except RuntimeError (UserMap Time) := do
  let users ← userLines.foldlM loadUser fun _ => none
  paymentLines.foldlM (loadPayment parse) users

end

/-! ## What is written -/

structure UserRecord where
  id : UserId
  name : Bytes
  age : Int64
  address : Bytes
  zip : Int64
  deriving DecidableEq, Repr

/-- A payment; its time is an RFC 3339 text. -/
structure PaymentRecord where
  cents : Int64
  time : Bytes
  userId : UserId
  deriving DecidableEq, Repr

/-- `record`, as `main` writes it to `users.csv`. -/
def UserRecord.columns (r : UserRecord) : List Bytes :=
  [itoa r.id, r.name, itoa r.age, r.address, itoa r.zip]

/-- `record`, as `main` writes it to `payments.csv`. -/
def PaymentRecord.columns (p : PaymentRecord) : List Bytes := [itoa p.cents, p.time, itoa p.userId]

/-! ## What is read back -/

/-- The payment is the one that was recorded. -/
structure Payment.IsRecorded {Time : Type} (parse : Bytes → Time) (payment : Payment Time)
    (p : PaymentRecord) : Prop where
  amount : ((payment.amount.dollars.toNat * 100 + payment.amount.cents.toNat : Nat) : Int)
    = p.cents.toInt
  time : payment.time = parse p.time

/-- The user is the one that was recorded, with the payments of the user in their order. -/
structure User.IsRecorded {Time : Type} (parse : Bytes → Time) (user : User Time) (r : UserRecord)
    (payments : List PaymentRecord) : Prop where
  id : user.id = r.id
  name : user.name = r.name
  age : user.age = r.age
  fullAddress : user.address.fullAddress = r.address
  zip : user.address.zip = r.zip
  payments : List.Forall₂ (Payment.IsRecorded parse) user.payments
    (payments.filter fun p => p.userId = r.id)

/-- The map has the recorded users, and no others. -/
structure UserMap.IsRecorded {Time : Type} (parse : Bytes → Time) (users : UserMap Time)
    (records : List UserRecord) (payments : List PaymentRecord) : Prop where
  user : ∀ r ∈ records, ∃ user, users r.id = some user ∧ user.IsRecorded parse r payments
  others : ∀ id, id ∉ records.map UserRecord.id → users id = none

/-- The address shows the zip: as a decimal number, an `int` at most, or by not being one if
the zip is 0. -/
def ShowsZip (address : Bytes) (zip : Int64) : Prop :=
  (∃ n, decimal address = some n ∧ zip = Int64.ofIntClamp n) ∨ (decimal address = none ∧ zip = 0)

section
variable {Time : Type} {parse : Bytes → Time} {users : UserMap Time}

/-! ## Single lines -/

/-- The user of a record, without payments. -/
def UserRecord.loaded (Time : Type) (r : UserRecord) : User Time :=
  ⟨r.id, r.name, r.age, ⟨r.address, (atoi r.address).1⟩, []⟩

def PaymentRecord.loaded (parse : Bytes → Time) (p : PaymentRecord) : Payment Time :=
  ⟨⟨(p.cents / 100).toUInt64, (p.cents % 100).toUInt64⟩, parse p.time⟩

/-- The user with the payments among `ps` that are the user's. -/
def User.pay (parse : Bytes → Time) (id : UserId) (ps : List PaymentRecord) (user : User Time) :
    User Time :=
  { user with payments := user.payments ++
      (ps.filter fun p => p.userId = id).map (PaymentRecord.loaded parse) }

theorem loadUser_columns (users : UserMap Time) (r : UserRecord) :
    loadUser users r.columns = .ok (assign users r.id (r.loaded Time)) := by
  simp only [loadUser, UserRecord.columns, column, List.getElem?_cons_zero, List.getElem?_cons_succ,
    ok_bind, atoi_itoa]
  rfl

theorem loadPayment_columns {p : PaymentRecord} {user : User Time}
    (huser : users p.userId = some user) :
    loadPayment parse users p.columns
      = .ok (assign users p.userId
          { user with payments := user.payments ++ [p.loaded parse] }) := by
  simp only [loadPayment, PaymentRecord.columns, column, List.getElem?_cons_zero,
    List.getElem?_cons_succ, ok_bind, atoi_itoa, huser]
  rfl

/-- An amount in dollars and cents is the recorded one. -/
theorem PaymentRecord.isRecorded_loaded {p : PaymentRecord} (hcents : 0 ≤ p.cents) :
    (p.loaded parse).IsRecorded parse p := by
  have hcents' : 0 ≤ p.cents.toInt := by
    rwa [Int64.le_iff_toInt_le, Int64.toInt_zero] at hcents
  have hhundred : (100 : Int64).toInt = 100 := rfl
  have hdollars : (p.cents / 100).toInt = p.cents.toInt / 100 := by
    rw [Int64.toInt_div_of_ne_right _ _ (by decide), hhundred, Int.tdiv_eq_ediv_of_nonneg hcents']
  have hrest : (p.cents % 100).toInt = p.cents.toInt % 100 := by
    rw [Int64.toInt_mod, hhundred, Int.tmod_eq_emod_of_nonneg hcents']
  have hnat : ∀ {x : Int64}, 0 ≤ x.toInt → (x.toUInt64.toNat : Int) = x.toInt := by
    intro x hx
    have hx' : 0 ≤ x := by rwa [Int64.le_iff_toInt_le, Int64.toInt_zero]
    rw [Int64.toNat_toUInt64_of_le hx', Int64.cast_toNatClampNeg x hx']
  have hdollarsNat := hnat (x := p.cents / 100) (by omega)
  have hrestNat := hnat (x := p.cents % 100) (by omega)
  refine ⟨?_, rfl⟩
  rw [PaymentRecord.loaded, Int.natCast_add, Int.natCast_mul, hdollarsNat, hrestNat, hdollars,
    hrest]
  omega

/-! ## Whole files -/

theorem foldlM_loadUser (records : List UserRecord) (users : UserMap Time) :
    (records.map UserRecord.columns).foldlM loadUser users
      = .ok (assignAll users (records.map fun r => (r.id, r.loaded Time))) := by
  induction records generalizing users with
  | nil => rfl
  | cons r records ih =>
      rw [List.map_cons, List.foldlM_cons, loadUser_columns, ok_bind, ih]
      rfl

/-- **The payments are added to those that were there**, by users. -/
theorem foldlM_loadPayment (parse : Bytes → Time) (payments : List PaymentRecord)
    (users : UserMap Time) (hlisted : ∀ p ∈ payments, users p.userId ≠ none) :
    ∃ loaded, (payments.map PaymentRecord.columns).foldlM (loadPayment parse) users = .ok loaded ∧
      ∀ id, loaded id = (users id).map (User.pay parse id payments) := by
  induction payments generalizing users with
  | nil =>
      refine ⟨users, rfl, ?_⟩
      intro id
      cases users id with
      | none => rfl
      | some user => simp [User.pay]
  | cons p payments ih =>
      obtain ⟨user, huser⟩ := Option.ne_none_iff_exists'.mp (hlisted p List.mem_cons_self)
      obtain ⟨loaded, hloaded, hpaid⟩ := ih
        (assign users p.userId { user with payments := user.payments ++ [p.loaded parse] }) (by
          intro q hq
          by_cases hid : q.userId = p.userId
          · rw [hid, assign_self]
            exact Option.some_ne_none _
          · rw [assign_of_ne hid]
            exact hlisted q (List.mem_cons_of_mem _ hq))
      refine ⟨loaded, ?_, ?_⟩
      · rw [List.map_cons, List.foldlM_cons, loadPayment_columns huser, ok_bind, hloaded]
      · intro id
        rw [hpaid id]
        by_cases hid : id = p.userId
        · subst hid
          rw [assign_self, huser, Option.map_some, Option.map_some]
          simp [User.pay]
        · have hother : User.pay parse id (p :: payments) = User.pay parse id payments := by
            funext user
            simp [User.pay, Ne.symm hid]
          rw [assign_of_ne hid, hother]

/-- What `LoadData` returns for the two files. -/
theorem loadData_columns (parse : Bytes → Time) (records : List UserRecord)
    (payments : List PaymentRecord) (hids : (records.map UserRecord.id).Nodup)
    (hlisted : ∀ p ∈ payments, p.userId ∈ records.map UserRecord.id) :
    ∃ loaded, loadData parse (records.map UserRecord.columns) (payments.map PaymentRecord.columns)
        = .ok loaded ∧
      (∀ r ∈ records, loaded r.id = some ((r.loaded Time).pay parse r.id payments)) ∧
      ∀ id, id ∉ records.map UserRecord.id → loaded id = none := by
  have hkeys : (records.map fun r => (r.id, r.loaded Time)).map Prod.fst
      = records.map UserRecord.id := by
    rw [List.map_map]
    rfl
  have huser : ∀ r ∈ records,
      assignAll (fun _ => none) (records.map fun r => (r.id, r.loaded Time)) r.id
        = some (r.loaded Time) := by
    intro r hr
    exact assignAll_of_mem (hkeys ▸ hids) (List.mem_map_of_mem hr)
  obtain ⟨loaded, hloaded, hpaid⟩ := foldlM_loadPayment parse payments
    (assignAll (fun _ => none) (records.map fun r => (r.id, r.loaded Time))) (by
      intro p hp
      obtain ⟨r, hr, hid⟩ := List.mem_map.mp (hlisted p hp)
      rw [← hid, huser r hr]
      exact Option.some_ne_none _)
  refine ⟨loaded, ?_, ?_, ?_⟩
  · rw [loadData, foldlM_loadUser, ok_bind, hloaded]
  · intro r hr
    rw [hpaid r.id, huser r hr, Option.map_some]
  · intro id hid
    rw [hpaid id, assignAll_of_notMem (hkeys ▸ hid), Option.map_none]

theorem showsZip_iff {address : Bytes} {zip : Int64} :
    ShowsZip address zip ↔ (atoi address).1 = zip := by
  unfold ShowsZip atoi
  cases decimal address with
  | none => simp [eq_comm]
  | some n => simp [eq_comm]

theorem forall₂_isRecorded {payments : List PaymentRecord} (hcents : ∀ p ∈ payments, 0 ≤ p.cents) :
    List.Forall₂ (Payment.IsRecorded parse) (payments.map (PaymentRecord.loaded parse))
      payments := by
  rw [List.forall₂_map_left_iff, List.forall₂_same]
  exact fun p hp => PaymentRecord.isRecorded_loaded (hcents p hp)

/-- **When the data is read back**: each address has to show the zip. -/
theorem loadData_iff (parse : Bytes → Time) (records : List UserRecord)
    (payments : List PaymentRecord) (hids : (records.map UserRecord.id).Nodup)
    (hcents : ∀ p ∈ payments, 0 ≤ p.cents)
    (hlisted : ∀ p ∈ payments, p.userId ∈ records.map UserRecord.id) :
    (∃ users, loadData parse (records.map UserRecord.columns) (payments.map PaymentRecord.columns)
        = .ok users ∧ users.IsRecorded parse records payments) ↔
      ∀ r ∈ records, ShowsZip r.address r.zip := by
  obtain ⟨loaded, hloaded, huser, hothers⟩ := loadData_columns parse records payments hids hlisted
  simp only [hloaded, Except.ok.injEq, exists_eq_left', showsZip_iff]
  constructor
  · intro hrecorded r hr
    obtain ⟨user, hr', hback⟩ := hrecorded.user r hr
    rw [huser r hr] at hr'
    obtain rfl := Option.some.inj hr'
    exact hback.zip
  · intro hzip
    refine ⟨?_, hothers⟩
    intro r hr
    refine ⟨_, huser r hr, ?_⟩
    constructor
    case id => rfl
    case name => rfl
    case age => rfl
    case fullAddress => rfl
    case zip => exact hzip r hr
    case payments => exact forall₂_isRecorded fun p hp => hcents p (List.mem_of_mem_filter hp)

end

/-- Seconds since 1970, for the one time below. -/
def newYear2010 (text : Bytes) : Int :=
  if text = ascii "2010-01-01T00:00:00Z" then 1262304000 else -62135596800

/-- A user with a zip; the address has a house number, and goes on behind it. -/
def annLee (zip : Int64) : UserRecord := ⟨7, ascii "Ann Lee", 30, ascii "1 Main St, Hilltown", zip⟩

def newYearPayment : PaymentRecord := ⟨12345, ascii "2010-01-01T00:00:00Z", 7⟩

theorem loadData_without_zip :
    ∃ users, loadData newYear2010 ([annLee 0].map UserRecord.columns)
        ([newYearPayment].map PaymentRecord.columns) = .ok users ∧
      users.IsRecorded newYear2010 [annLee 0] [newYearPayment] := by
  refine (loadData_iff newYear2010 _ _ (by decide) (by decide) (by decide)).mpr ?_
  rw [List.forall_mem_singleton]
  exact .inr ⟨by decide, rfl⟩

/-- The zip 90210 is lost. -/
theorem loadData_with_zip :
    ¬ ∃ users, loadData newYear2010 ([annLee 90210].map UserRecord.columns)
        ([newYearPayment].map PaymentRecord.columns) = .ok users ∧
      users.IsRecorded newYear2010 [annLee 90210] [newYearPayment] := by
  rintro ⟨users, hload, hrecorded⟩
  obtain ⟨loaded, hloaded, hread, -⟩ :=
    loadData_columns newYear2010 [annLee 90210] [newYearPayment] (by decide) (by decide)
  rw [hloaded] at hload
  obtain rfl := Except.ok.inj hload
  obtain ⟨user, huser, hback⟩ := hrecorded.user _ List.mem_cons_self
  rw [hread _ List.mem_cons_self] at huser
  obtain rfl := Option.some.inj huser
  exact absurd hback.zip (by decide)

end Nyctomek.Metrics
