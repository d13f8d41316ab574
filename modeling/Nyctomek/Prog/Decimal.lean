/-
# `Prog.Decimal` — numbers as decimal texts

`strconv.Itoa` and `strconv.Atoi` of Go, for an `int` of 64 bits.  A text shows a number if
it is a row of digits, with a sign in front or without:

    no digits, or others among them   0, and a syntax error
    a number beyond an `int`          the `int` that is closest to it, and a range error
    another number                    that number

What `itoa` writes `atoi` reads (`atoi_itoa`).
-/
import Mathlib.Algebra.Group.Nat.Defs
import Nyctomek.Prog.Bytes

namespace Prog

/-- `'+'` and `'-'`. -/
def plus : UInt8 := 43

def minus : UInt8 := 45

def IsDecimalDigit (b : UInt8) : Prop := 48 ≤ b ∧ b ≤ 57

instance (b : UInt8) : Decidable (IsDecimalDigit b) :=
  inferInstanceAs (Decidable (48 ≤ b ∧ b ≤ 57))

/-- The digits of a number. -/
def digits (n : Nat) : Bytes := (Nat.toDigits 10 n).map fun c => UInt8.ofNat c.toNat

/-- The number with the digits. -/
def ofDigits (ds : Bytes) : Nat := ds.foldl (fun n b => n * 10 + (b.toNat - 48)) 0

/-- The number that a row of digits shows. -/
def natural (ds : Bytes) : Option Nat :=
  if !ds.isEmpty && ds.all fun b => IsDecimalDigit b then some (ofDigits ds) else none

/-- The number that a text shows, with a sign or without. -/
def decimal (s : Bytes) : Option Int :=
  match s with
  | [] => none
  | b :: ds =>
      if b = minus then (natural ds).map fun n : Nat => -(n : Int)
      else if b = plus then (natural ds).map fun n : Nat => (n : Int)
      else (natural (b :: ds)).map fun n : Nat => (n : Int)

inductive NumError where
  | ErrSyntax | ErrRange
  deriving DecidableEq, Repr

/-- `strconv.Itoa`. -/
def itoa (i : Int64) : Bytes :=
  if i.toInt < 0 then minus :: digits i.toInt.natAbs else digits i.toInt.natAbs

/-- `strconv.Atoi`: the number, and the error if there is one. -/
def atoi (s : Bytes) : Int64 × Option NumError :=
  match decimal s with
  | none => (0, some .ErrSyntax)
  | some n =>
      (Int64.ofIntClamp n,
        if Int64.minValue.toInt ≤ n ∧ n ≤ Int64.maxValue.toInt then none else some .ErrRange)

/-! ## There and back -/

theorem natural_of {ds : Bytes} (hne : ds ≠ []) (hall : ∀ b ∈ ds, IsDecimalDigit b) :
    natural ds = some (ofDigits ds) := by
  refine if_pos ?_
  rw [Bool.and_eq_true, Bool.not_eq_true', List.isEmpty_eq_false_iff, List.all_eq_true]
  exact ⟨hne, fun b hb => decide_eq_true (hall b hb)⟩

theorem isDecimalDigit_of_natural {b : UInt8} {ds : Bytes} (hb : b ∈ ds) (h : natural ds ≠ none) :
    IsDecimalDigit b := by
  by_contra hno
  refine h (if_neg ?_)
  rw [Bool.and_eq_true, List.all_eq_true]
  exact fun hall => hno (of_decide_eq_true (hall.2 b hb))

theorem toNat_digitChar : ∀ d < 10, (Nat.digitChar d).toNat = 48 + d := by decide

theorem isDecimalDigit_ofNat : ∀ d < 10, IsDecimalDigit (UInt8.ofNat (48 + d)) := by decide

/-- The last digit, and the ones in front of it. -/
theorem digits_induction {P : Nat → Bytes → Prop}
    (hone : ∀ d < 10, P d [UInt8.ofNat (48 + d)])
    (hmore : ∀ n d ds, 0 < n → d < 10 → P n ds → P (10 * n + d) (ds ++ [UInt8.ofNat (48 + d)]))
    (n : Nat) : P n (digits n) := by
  induction n using Nat.strongRecOn with
  | ind n ih =>
      rcases Nat.lt_or_ge n 10 with hlt | hge
      · rw [digits, Nat.toDigits_of_lt_base hlt, List.map_singleton, toNat_digitChar n hlt]
        exact hone n hlt
      · have hlast : n % 10 < 10 := Nat.mod_lt n (by decide)
        have hrest := hmore (n / 10) (n % 10) _ (Nat.div_pos hge (by decide)) hlast
          (ih (n / 10) (Nat.div_lt_self (by omega) (by decide)))
        rw [Nat.div_add_mod] at hrest
        rwa [digits, Nat.toDigits_of_base_le (by decide) hge, List.map_append, List.map_singleton,
          toNat_digitChar _ hlast]

theorem toNat_ofNat_digit : ∀ d < 10, (UInt8.ofNat (48 + d)).toNat - 48 = d := by decide

/-- The digits of a number show it. -/
theorem natural_digits (n : Nat) : natural (digits n) = some n := by
  have hdigits : (digits n ≠ [] ∧ ∀ b ∈ digits n, IsDecimalDigit b) ∧ ofDigits (digits n) = n := by
    refine digits_induction (P := fun n ds =>
      (ds ≠ [] ∧ ∀ b ∈ ds, IsDecimalDigit b) ∧ ofDigits ds = n) ?_ ?_ n
    · intro d hd
      refine ⟨⟨List.cons_ne_nil _ _, ?_⟩, ?_⟩
      · rw [List.forall_mem_singleton]
        exact isDecimalDigit_ofNat d hd
      · rw [ofDigits, List.foldl_cons, List.foldl_nil, toNat_ofNat_digit d hd, Nat.zero_mul,
          Nat.zero_add]
    · rintro n d ds - hd ⟨⟨-, hall⟩, hn⟩
      refine ⟨⟨by simp, ?_⟩, ?_⟩
      · intro b hb
        rcases List.mem_append.mp hb with hds | hlast
        · exact hall b hds
        · rw [List.mem_singleton.mp hlast]
          exact isDecimalDigit_ofNat d hd
      · rw [ofDigits] at hn
        rw [ofDigits, List.foldl_append, hn, List.foldl_cons, List.foldl_nil,
          toNat_ofNat_digit d hd, Nat.mul_comm]
  rw [natural_of hdigits.1.1 hdigits.1.2, hdigits.2]

/-- A row of digits has no sign. -/
theorem decimal_digits (n : Nat) : decimal (digits n) = some (n : Int) := by
  have hnatural := natural_digits n
  cases hds : digits n with
  | nil =>
      rw [hds] at hnatural
      cases hnatural
  | cons b ds =>
      rw [hds] at hnatural
      have hb : IsDecimalDigit b := by
        have hsome : natural (b :: ds) ≠ none := by
          rw [hnatural]
          exact Option.some_ne_none n
        exact isDecimalDigit_of_natural List.mem_cons_self hsome
      have hminus : b ≠ minus := by
        rintro rfl
        exact absurd hb (by decide)
      have hplus : b ≠ plus := by
        rintro rfl
        exact absurd hb (by decide)
      rw [decimal, if_neg hminus, if_neg hplus, hnatural, Option.map_some]

theorem decimal_itoa (i : Int64) : decimal (itoa i) = some i.toInt := by
  unfold itoa
  split
  · next hneg =>
    rw [decimal, if_pos rfl, natural_digits, Option.map_some,
      Int.ofNat_natAbs_of_nonpos (Int.le_of_lt hneg), Int.neg_neg]
  · next hpos => rw [decimal_digits, Int.natAbs_of_nonneg (Int.not_lt.mp hpos)]

/-- **What is written is read.** -/
theorem atoi_itoa (i : Int64) : atoi (itoa i) = (i, none) := by
  have hlow := i.minValue_le_toInt
  have hhigh := i.toInt_le
  rw [atoi, decimal_itoa]
  simp only [Int64.ofIntClamp_toInt, if_pos (And.intro hlow hhigh)]

end Prog
