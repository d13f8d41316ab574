/-
# `Vec.DotProduct` — `dotproduct` of two vectors

The loop goes by the length of the first vector and does not look at what `get_vec_element`
returns.  Behind the end of the second one its variable keeps what it has: the last number, or
none at all.

    term            u[i] * v[i], with the last number of `v` behind its end
    dotproduct_iff  the sum of the terms comes out exactly if each term and each sum on the way
                    is a `long`, and `v` has a number if `u` has one
-/
import Mathlib.Algebra.BigOperators.Intervals
import Nyctomek.Prog.ForLoop
import Nyctomek.Vec.Basic

namespace Nyctomek.Vec

open Prog

/-- A number that a `long` has room for. -/
def IsLong (x : Int) : Prop := -2 ^ 63 ≤ x ∧ x < 2 ^ 63

instance (x : Int) : Decidable (IsLong x) := inferInstanceAs (Decidable (_ ∧ _))

/-- The result of an operation on `long`s. -/
def long (x : Int) : Except Fault Int := if IsLong x then .ok x else .error .overflow

/-- The variables of the loop, `none` as long as they have no value. -/
structure Sums where
  sum : Int
  uVal : Option Int
  vVal : Option Int
  deriving DecidableEq, Repr

/-- A variable with a value. -/
def initialized : Option Int → Except Fault Int
  | some value => .ok value
  | none => .error .uninitialized

section
variable (u v : VecRec)

/-- One turn. -/
def dotproductTurn (i : Nat) (s : Sums) : Except Fault Sums := do
  let uNext ← u.getVecElement i
  let vNext ← v.getVecElement i
  -- what returns 0 leaves the variable as it is
  let uVal ← initialized (uNext.or s.uVal)
  let vVal ← initialized (vNext.or s.vVal)
  let product ← long (uVal * vVal)
  let sum ← long (s.sum + product)
  .ok ⟨sum, some uVal, some vVal⟩

def dotproduct : Except Fault Int := do
  let s ← forUpTo u.vecLength.toNat (dotproductTurn u v) ⟨0, none, none⟩
  .ok s.sum

end

/-- A vector with these numbers, for which memory has been granted. -/
def Contents (v : VecRec) (cells : Int → Int) : Prop :=
  Holds v ⟨v.len, v.allocatedLen, some cells⟩

/-- The product of the turn `i`, where the second vector has the length `n`. -/
def term (a b : Int → Int) (n : Int) (i : Nat) : Int := a i * b (min i (n - 1))

section
variable {u v : VecRec} {a b : Int → Int} {k : Nat} {s : Sums}

theorem Contents.getVecElement (h : Contents v a) (index : Int) :
    v.getVecElement index = .ok (if 0 ≤ index ∧ index < v.len then some (a index) else none) := by
  have hget := Holds.get h index
  rw [VecRec.step, Store.step, Store.inside] at hget
  generalize v.getVecElement index = x at hget
  cases x with
  | error e =>
      split at hget <;> cases hget
  | ok value =>
      split at hget
      · rename_i hin
        rw [if_pos hin]
        cases hget
        rfl
      · rename_i hin
        rw [if_neg hin]
        cases hget
        rfl

/-- The variables in front of the turn `k`. -/
structure Summed (a b : Int → Int) (n : Int) (k : Nat) (s : Sums) : Prop where
  sum : s.sum = ∑ i ∈ Finset.range k, term a b n i
  last : k ≠ 0 → s.vVal = some (b (min ((k : Int) - 1) (n - 1)))

theorem summed_zero (a b : Int → Int) (n : Int) : Summed a b n 0 ⟨0, none, none⟩ :=
  ⟨rfl, fun h => absurd rfl h⟩

/-- **A turn** with numbers for both variables. -/
theorem dotproductTurn_eq (hu : Contents u a) (hv : Contents v b) (hpos : 0 < v.len)
    (hk : (k : Int) < u.len) (hs : Summed a b v.len k s) :
    dotproductTurn u v k s =
      long (term a b v.len k) >>= fun product =>
        long ((∑ i ∈ Finset.range k, term a b v.len i) + product) >>= fun sum =>
          .ok ⟨sum, some (a k), some (b (min k (v.len - 1)))⟩ := by
  have huVal : initialized ((if 0 ≤ (k : Int) ∧ (k : Int) < u.len then some (a k) else none).or
      s.uVal) = .ok (a k) := by
    rw [if_pos ⟨Int.natCast_nonneg k, hk⟩]
    rfl
  have hvVal : initialized ((if 0 ≤ (k : Int) ∧ (k : Int) < v.len then some (b k) else none).or
      s.vVal) = .ok (b (min k (v.len - 1))) := by
    by_cases hin : (k : Int) < v.len
    · rw [if_pos ⟨Int.natCast_nonneg k, hin⟩, min_eq_left (by omega)]
      rfl
    · rw [if_neg fun h => hin h.2, Option.none_or, hs.last (by omega), min_eq_right (by omega),
        min_eq_right (by omega)]
      rfl
  rw [dotproductTurn, hu.getVecElement, hv.getVecElement, ok_bind, ok_bind, huVal, hvVal, ok_bind,
    ok_bind, hs.sum]
  rfl

/-- What the turn `k` needs. -/
def TurnFits (a b : Int → Int) (n : Int) (k : Nat) : Prop :=
  IsLong (term a b n k) ∧ IsLong (∑ i ∈ Finset.range (k + 1), term a b n i)

instance (a b : Int → Int) (n : Int) (k : Nat) : Decidable (TurnFits a b n k) :=
  inferInstanceAs (Decidable (_ ∧ _))

theorem dotproductTurn_ok (hu : Contents u a) (hv : Contents v b) (hpos : 0 < v.len)
    (hk : (k : Int) < u.len) (hfits : TurnFits a b v.len k) (hs : Summed a b v.len k s) :
    ∃ s', dotproductTurn u v k s = .ok s' ∧ Summed a b v.len (k + 1) s' := by
  obtain ⟨hproduct, hsum⟩ := hfits
  rw [Finset.sum_range_succ] at hsum
  rw [dotproductTurn_eq hu hv hpos hk hs, long, if_pos hproduct, ok_bind, long, if_pos hsum,
    ok_bind]
  refine ⟨_, rfl, (Finset.sum_range_succ _ _).symm, fun _ => ?_⟩
  simp only [Nat.cast_add, Nat.cast_one, Int.add_sub_cancel]

theorem dotproductTurn_error (hu : Contents u a) (hv : Contents v b) (hpos : 0 < v.len)
    (hk : (k : Int) < u.len) (hnot : ¬ TurnFits a b v.len k) (hs : Summed a b v.len k s) :
    ∃ e, dotproductTurn u v k s = .error e := by
  refine ⟨.overflow, ?_⟩
  rw [dotproductTurn_eq hu hv hpos hk hs]
  by_cases hproduct : IsLong (term a b v.len k)
  · have hsum : ¬ IsLong ((∑ i ∈ Finset.range k, term a b v.len i) + term a b v.len k) := by
      intro hsum
      rw [← Finset.sum_range_succ] at hsum
      exact hnot ⟨hproduct, hsum⟩
    rw [long, if_pos hproduct, ok_bind, long, if_neg hsum]
    rfl
  · rw [long, if_neg hproduct]
    rfl

/-- **The loop**, where both vectors have numbers. -/
theorem forUpTo_dotproduct (hu : Contents u a) (hv : Contents v b) (hpos : 0 < v.len) {n : Nat}
    (hn : (n : Int) ≤ u.len) :
    ((∀ k, k < n → TurnFits a b v.len k) → ∃ s, forUpTo n (dotproductTurn u v) ⟨0, none, none⟩
      = .ok s ∧ s.sum = ∑ i ∈ Finset.range n, term a b v.len i) ∧
    ((∃ k, k < n ∧ ¬ TurnFits a b v.len k) →
      ∃ e, forUpTo n (dotproductTurn u v) ⟨0, none, none⟩ = .error e) := by
  constructor
  · intro hfits
    obtain ⟨s, hrun, hs⟩ := forUpTo_invariant (I := Summed a b v.len)
      (summed_zero a b v.len) fun i s hi hs =>
        dotproductTurn_ok hu hv hpos (by omega) (hfits i hi) hs
    exact ⟨s, hrun, hs.sum⟩
  · intro hnot
    -- the first turn that does not fit
    obtain ⟨hlt, hfirst⟩ := Nat.find_spec hnot
    have hbefore : ∀ i, i < Nat.find hnot → TurnFits a b v.len i := by
      intro i hi
      by_contra hi'
      exact Nat.find_min hnot hi ⟨hi.trans hlt, hi'⟩
    refine forUpTo_error hlt (summed_zero a b v.len) ?_ ?_
    · intro i s hi hs
      exact dotproductTurn_ok hu hv hpos (by omega) (hbefore i hi) hs
    · intro s hs
      exact dotproductTurn_error hu hv hpos (by omega) hfirst hs

/-- The first turn has no number for the second variable. -/
theorem dotproduct_uninitialized (hu : Contents u a) (hv : Contents v b) (hpos : 0 < u.len)
    (hnone : v.len ≤ 0) : dotproduct u v = .error .uninitialized := by
  have hturn : forUpTo 1 (dotproductTurn u v) ⟨0, none, none⟩ = .error .uninitialized := by
    have hin : ¬ (0 ≤ ((0 : Nat) : Int) ∧ ((0 : Nat) : Int) < v.len) := by omega
    have hin' : 0 ≤ ((0 : Nat) : Int) ∧ ((0 : Nat) : Int) < u.len := by omega
    show dotproductTurn u v 0 ⟨0, none, none⟩ = _
    rw [dotproductTurn, hu.getVecElement, hv.getVecElement, if_neg hin, if_pos hin']
    rfl
  have hle : 1 ≤ u.vecLength.toNat := by
    rw [VecRec.vecLength]
    omega
  rw [dotproduct, forUpTo_error_of_le hturn hle]
  rfl

end

/-- **`dotproduct`** of any two vectors, also of different lengths: it comes back with the sum of
the terms if nothing overflows, and the second vector is not empty where the first is not.
Otherwise its behaviour is undefined. -/
theorem dotproduct_iff {u v : VecRec} {a b : Int → Int} (hu : Contents u a) (hv : Contents v b)
    (total : Int) : dotproduct u v = .ok total ↔
      (0 < u.len → 0 < v.len) ∧ (∀ k : Nat, (k : Int) < u.len → TurnFits a b v.len k) ∧
        total = ∑ i ∈ Finset.range u.len.toNat, term a b v.len i := by
  by_cases hempty : u.len ≤ 0
  · have hzero : u.len.toNat = 0 := by omega
    have hrun : dotproduct u v = .ok 0 := by
      rw [dotproduct, VecRec.vecLength, hzero]
      rfl
    rw [hrun, hzero, Finset.sum_range_zero, Except.ok.injEq]
    constructor
    · rintro rfl
      exact ⟨fun hpos => absurd hpos (by omega), fun k hk => absurd hk (by omega), rfl⟩
    · exact fun h => h.2.2.symm
  · by_cases hpos : 0 < v.len
    · obtain ⟨hok, herror⟩ := forUpTo_dotproduct (n := u.len.toNat) hu hv hpos (by omega)
      constructor
      · intro hrun
        have hfits : ∀ k, k < u.len.toNat → TurnFits a b v.len k := by
          by_contra hnot
          push Not at hnot
          obtain ⟨e, he⟩ := herror hnot
          rw [dotproduct, VecRec.vecLength, he] at hrun
          cases hrun
        obtain ⟨s, hs, hsum⟩ := hok hfits
        rw [dotproduct, VecRec.vecLength, hs] at hrun
        refine ⟨fun _ => hpos, fun k hk => hfits k (by omega), ?_⟩
        rw [← hsum]
        exact (Except.ok.inj hrun).symm
      · rintro ⟨-, hfits, rfl⟩
        obtain ⟨s, hs, hsum⟩ := hok fun k hk => hfits k (by omega)
        rw [dotproduct, VecRec.vecLength, hs, ok_bind, hsum]
    · rw [dotproduct_uninitialized hu hv (by omega) (by omega)]
      exact iff_of_false (by simp) fun h => hpos (h.1 (by omega))

/-- Three numbers and two: the last one counts twice. -/
theorem dotproduct_iff_short : dotproduct ⟨3, some [1, 2, 3], 3⟩ ⟨2, some [4, 5], 2⟩ = .ok 29 := by
  have hu : Contents ⟨3, some [1, 2, 3], 3⟩ fun i => i + 1 := by
    refine ⟨rfl, rfl, by decide, fun _ => .some rfl ?_⟩
    intro i value hi
    obtain ⟨hlt, rfl⟩ := List.getElem?_eq_some_iff.mp hi
    match i, hlt with
    | 0, _ | 1, _ | 2, _ => rfl
  have hv : Contents ⟨2, some [4, 5], 2⟩ fun i => i + 4 := by
    refine ⟨rfl, rfl, by decide, fun _ => .some rfl ?_⟩
    intro i value hi
    obtain ⟨hlt, rfl⟩ := List.getElem?_eq_some_iff.mp hi
    match i, hlt with
    | 0, _ | 1, _ => rfl
  refine (dotproduct_iff hu hv 29).mpr ⟨fun _ => by decide, ?_, rfl⟩
  intro k hk
  have hk : k < 3 := Int.ofNat_lt.mp hk
  match k, hk with
  | 0, _ | 1, _ | 2, _ => decide

end Nyctomek.Vec
