/-
# `Prog.Service` — services as functions of their history

What a service answers to a call depends on the calls before it; so a service
is, abstractly, a function of the past and the call.  Two services answer a run
alike exactly when they agree after each of its prefixes.
-/
import Mathlib.Data.List.Induction

namespace Prog

/-- What to answer to a call, given the calls before it. -/
abbrev Service (ι ο : Type) := List ι → ι → ο

variable {ι ο : Type}

/-- The answers to a run of calls that starts after some `past`. -/
def answersFrom (f : Service ι ο) (past : List ι) : List ι → List ο
  | [] => []
  | call :: calls => f past call :: answersFrom f (past ++ [call]) calls

/-- The answers to a run of calls from the start. -/
def answers (f : Service ι ο) (calls : List ι) : List ο := answersFrom f [] calls

theorem answersFrom_concat (f : Service ι ο) (past calls : List ι) (call : ι) :
    answersFrom f past (calls ++ [call]) = answersFrom f past calls ++ [f (past ++ calls) call] := by
  induction calls generalizing past with
  | nil => simp [answersFrom]
  | cons c calls ih => simp [answersFrom, ih]

theorem answers_concat (f : Service ι ο) (calls : List ι) (call : ι) :
    answers f (calls ++ [call]) = answers f calls ++ [f calls call] :=
  answersFrom_concat f [] calls call

theorem answersFrom_eq_iff {f g : Service ι ο} : ∀ {past calls : List ι},
    answersFrom f past calls = answersFrom g past calls ↔
      ∀ pre call post, calls = pre ++ call :: post → f (past ++ pre) call = g (past ++ pre) call
  | past, [] => by simp [answersFrom]
  | past, c :: calls => by
      have ih : answersFrom f (past ++ [c]) calls = answersFrom g (past ++ [c]) calls ↔ _ :=
        answersFrom_eq_iff
      simp only [answersFrom, List.cons.injEq, ih]
      constructor
      · rintro ⟨hc, hrest⟩ pre call post heq
        cases pre with
        | nil =>
            obtain ⟨rfl, rfl⟩ := List.cons.inj heq
            simpa using hc
        | cons p pre =>
            obtain ⟨rfl, hcalls⟩ := List.cons.inj heq
            simpa using hrest pre call post hcalls
      · intro h
        refine ⟨by simpa using h [] c calls rfl, ?_⟩
        intro pre call post heq
        simpa using h (c :: pre) call post (by rw [heq, List.cons_append])

/-- Two services answer a run alike iff they agree at every call of it. -/
theorem answers_eq_iff {f g : Service ι ο} {calls : List ι} :
    answers f calls = answers g calls ↔
      ∀ pre call post, calls = pre ++ call :: post → f pre call = g pre call :=
  answersFrom_eq_iff

/-- The answer to one call of a run. -/
theorem answers_getElem? (f : Service ι ο) (pre : List ι) (call : ι) (post : List ι) :
    (answers f (pre ++ call :: post))[pre.length]? = some (f pre call) := by
  have hlen : ∀ past calls : List ι, (answersFrom f past calls).length = calls.length := by
    intro past calls
    induction calls generalizing past with
    | nil => rfl
    | cons c calls ih => simp [answersFrom, ih]
  induction post using List.reverseRecOn with
  | nil =>
      rw [answers_concat, List.getElem?_append_right (by simp [answers, hlen])]
      simp [answers, hlen]
  | append_singleton post last ih =>
      rw [show pre ++ call :: (post ++ [last]) = (pre ++ call :: post) ++ [last] by simp,
        answers_concat, List.getElem?_append_left, ih]
      simp [answers, hlen]

end Prog
