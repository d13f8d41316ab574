/-
# `Prog.Triple` — pre- and postconditions between the turns of a loop

Where the turns of a loop execute the instructions of a program, its points are sets of
states, and a piece of the program leads from one to another.

    Triple turn P Q       from every state with `P` some turns lead to one with `Q`
    Finishes turn P S     from every state with `P` the loop is left, with a result of `S`

Both are total: no state with `P` goes wrong or goes on for ever.  Pieces are put together by
`Triple.seq`; a loop in the program that counts down is `Triple.countdown`; and
`Triple.finishes` leads to the end.
-/
import Nyctomek.Prog.Loop

namespace Prog

variable {ε σ ρ : Type} {turn : σ → Except ε (Turn σ ρ)} {P Q R : σ → Prop}
  {S : ρ → Prop}

/-- From every state with `P` some turns lead to one with `Q`. -/
def Triple (turn : σ → Except ε (Turn σ ρ)) (P Q : σ → Prop) : Prop :=
  ∀ s, P s → ∃ s', Turns turn s s' ∧ Q s'

/-- From every state with `P` the loop is left, with a result of `S`. -/
def Finishes (turn : σ → Except ε (Turn σ ρ)) (P : σ → Prop) (S : ρ → Prop) : Prop :=
  ∀ s, P s → ∃ r, Ends (fun n => loop turn n s) (.ok r) ∧ S r

namespace Triple

theorem skip (h : ∀ s, P s → Q s) : Triple turn P Q :=
  fun s hs => ⟨s, .refl s, h s hs⟩

theorem seq (h : Triple turn P Q) (h' : Triple turn Q R) : Triple turn P R := by
  intro s hs
  obtain ⟨s', hturns, hs'⟩ := h s hs
  obtain ⟨s'', hturns', hs''⟩ := h' s' hs'
  exact ⟨s'', hturns.trans hturns', hs''⟩

/-- **A loop that counts down**: the invariant is indexed by the rounds that are left. -/
theorem countdown {I : Nat → σ → Prop} (h : ∀ n, Triple turn (I (n + 1)) (I n)) (n : Nat) :
    Triple turn (I n) (I 0) := by
  induction n with
  | zero => exact skip fun _ hs => hs
  | succ n ih => exact (h n).seq ih

theorem finishes (h : Triple turn P Q) (h' : Finishes turn Q S) : Finishes turn P S := by
  intro s hs
  obtain ⟨s', hturns, hs'⟩ := h s hs
  obtain ⟨r, hends, hr⟩ := h' s' hs'
  exact ⟨r, .of_turns hturns hends, hr⟩

end Triple

end Prog
