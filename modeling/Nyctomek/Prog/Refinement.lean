/-
# `Prog.Refinement` — objects with a state, and what they stand for

An object answers calls: `step s call` is the answer and the state behind it, or a fault,
behind which nothing is answered.  Of its runs only the `transcript` is seen, so that an object
may be replaced by a simpler one with other states, if the two are never told apart.

    Refines step step' R    related states answer alike, and go on to related states
    Refines.transcript_eq   and then so do their runs
-/
import Mathlib.Logic.Basic

namespace Prog

variable {ε ι ο σ τ : Type} {step : σ → ι → Except ε (ο × σ)} {step' : τ → ι → Except ε (ο × τ)}
  {R : σ → τ → Prop} {s : σ} {t : τ} {call : ι}

/-- The answers to the calls, and the fault that ends them, if there is one. -/
def transcript (step : σ → ι → Except ε (ο × σ)) : σ → List ι → List ο × Option ε
  | _, [] => ([], none)
  | s, call :: calls =>
      match step s call with
      | .error e => ([], some e)
      | .ok (answer, s') => (transcript step s' calls).map (answer :: ·) id

theorem transcript_ok {answer : ο} {s' : σ} (h : step s call = .ok (answer, s'))
    (calls : List ι) : transcript step s (call :: calls)
      = (transcript step s' calls).map (answer :: ·) id := by
  rw [transcript, h]

theorem transcript_error {e : ε} (h : step s call = .error e) (calls : List ι) :
    transcript step s (call :: calls) = ([], some e) := by
  rw [transcript, h]

/-- Two answers that cannot be told apart, and related states behind them. -/
inductive Alike (R : σ → τ → Prop) : Except ε (ο × σ) → Except ε (ο × τ) → Prop
  | error (e : ε) : Alike R (.error e) (.error e)
  | ok (answer : ο) {s : σ} {t : τ} : R s t → Alike R (.ok (answer, s)) (.ok (answer, t))

/-- **One call**: related states answer alike. -/
def Refines (step : σ → ι → Except ε (ο × σ)) (step' : τ → ι → Except ε (ο × τ))
    (R : σ → τ → Prop) : Prop :=
  ∀ s t call, R s t → Alike R (step s call) (step' t call)

/-- **A run of calls.** -/
theorem Refines.transcript_eq (h : Refines step step' R) (hR : R s t) (calls : List ι) :
    transcript step s calls = transcript step' t calls := by
  induction calls generalizing s t with
  | nil => rfl
  | cons call calls ih =>
      have hcall := h s t call hR
      generalize hx : step s call = x at hcall
      generalize hy : step' t call = y at hcall
      cases hcall with
      | error e => rw [transcript_error hx, transcript_error hy]
      | ok answer hnext => rw [transcript_ok hx, transcript_ok hy, ih hnext]

end Prog
