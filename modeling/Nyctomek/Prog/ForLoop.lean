/-
# `Prog.ForLoop` — counted loops

`forUpTo n body s` is `for(i = 0; i < n; i++)`: the body runs for 0, 1, …, `n - 1`
on the state that the turns before it have left, and the first turn that goes
wrong ends the loop.  Two rules cover such loops: `forUpTo_invariant`, for loops
that go through (`forUpTo_eq` if their states are known), and `forUpTo_error`, for
loops that reach a turn that fails.
-/
import Mathlib.Algebra.Group.Nat.Defs

namespace Prog

variable {ε σ : Type}

/-- `for(i = 0; i < n; i++) body`. -/
def forUpTo : Nat → (Nat → σ → Except ε σ) → σ → Except ε σ
  | 0, _, s => .ok s
  | n + 1, body, s =>
      match forUpTo n body s with
      | .error e => .error e
      | .ok s' => body n s'

variable {body : Nat → σ → Except ε σ} {s s' : σ} {n : Nat}

theorem forUpTo_succ (h : forUpTo n body s = .ok s') :
    forUpTo (n + 1) body s = body n s' := by simp only [forUpTo, h]

/-- **A loop that goes through.**  What each turn carries on holds after the last. -/
theorem forUpTo_invariant {I : Nat → σ → Prop} (h0 : I 0 s)
    (hturn : ∀ i s, i < n → I i s → ∃ s', body i s = .ok s' ∧ I (i + 1) s') :
    ∃ s', forUpTo n body s = .ok s' ∧ I n s' := by
  induction n with
  | zero => exact ⟨s, rfl, h0⟩
  | succ n ih =>
      obtain ⟨s₁, hrun, hI⟩ := ih fun i s hi => hturn i s (Nat.lt_succ_of_lt hi)
      obtain ⟨s₂, hbody, hI'⟩ := hturn n s₁ (Nat.lt_succ_self n) hI
      exact ⟨s₂, (forUpTo_succ hrun).trans hbody, hI'⟩

/-- A loop whose states are known. -/
theorem forUpTo_eq {F : Nat → σ} (hturn : ∀ i, i < n → body i (F i) = .ok (F (i + 1))) :
    forUpTo n body (F 0) = .ok (F n) := by
  have hI : ∀ i s, i < n → s = F i → ∃ s', body i s = .ok s' ∧ s' = F (i + 1) := by
    rintro i s hi rfl
    exact ⟨F (i + 1), hturn i hi, rfl⟩
  obtain ⟨s', hrun, rfl⟩ := forUpTo_invariant (I := fun i s => s = F i) rfl hI
  exact hrun

/-- The turns behind one that fails are not reached. -/
theorem forUpTo_error_of_le {e : ε} {m : Nat} (h : forUpTo m body s = .error e) (hm : m ≤ n) :
    forUpTo n body s = .error e := by
  induction n with
  | zero =>
      obtain rfl : m = 0 := Nat.le_zero.mp hm
      exact h
  | succ n ih =>
      rcases Nat.eq_or_lt_of_le hm with rfl | hlt
      · exact h
      · simp only [forUpTo, ih (Nat.le_of_lt_succ hlt)]

/-- **A loop that fails.**  The turns before turn `k` go through, and that one fails. -/
theorem forUpTo_error {I : Nat → σ → Prop} {k : Nat} (hk : k < n) (h0 : I 0 s)
    (hturn : ∀ i s, i < k → I i s → ∃ s', body i s = .ok s' ∧ I (i + 1) s')
    (hfail : ∀ s, I k s → ∃ e, body k s = .error e) : ∃ e, forUpTo n body s = .error e := by
  obtain ⟨s', hrun, hI⟩ := forUpTo_invariant h0 hturn
  obtain ⟨e, he⟩ := hfail s' hI
  exact ⟨e, forUpTo_error_of_le ((forUpTo_succ hrun).trans he) hk⟩

end Prog
