/-
# `Prog.Loop` — `while` loops of imperative code, with fuel

A loop is given by its body: a *turn* takes the values of the loop's variables
and says whether to go round again, to leave with a result, or that the turn
itself went wrong (an index out of range, a null pointer).  `loop turn fuel s`
runs at most `fuel` turns from `s`, so that it can be evaluated; `Ends f r`
abstracts the fuel away and says that the program `f` ends with `r` as soon as
it is given enough of it.

    outcome of a run        as an `Exec`
    ends with `a`           `pure a`    = `done (.ok a)`
    goes wrong with `e`     `throw e`   = `done (.error e)`
    fuel used up            `noFuel`

Three rules cover the loops of a program:

* `loop_variant` — total correctness: an invariant and a measure that drops;
* `not_ends_of_again` — endless loops: an invariant under which every turn goes on;
* `Ends.of_turns` — symbolic execution: a known number of turns taken first.
-/
import Mathlib.Data.List.Induction

namespace Prog

/-- A computation that may go wrong with an `ε` or run out of fuel. -/
abbrev Exec (ε α : Type) := ExceptT ε Option α

variable {ε α β σ ρ : Type}

/-- The computation has come to an end, well or badly. -/
def done (r : Except ε α) : Exec ε α := ExceptT.mk (some r)

/-- The fuel has been used up. -/
def noFuel : Exec ε α := ExceptT.mk none

theorem done_inj {r r' : Except ε α} (h : done r = done r') : r = r' :=
  Option.some.inj h

theorem noFuel_ne_done (r : Except ε α) : (noFuel : Exec ε α) ≠ done r :=
  fun h => Option.noConfusion rfl (heq_of_eq h)

theorem noFuel_or_done (x : Exec ε α) : x = noFuel ∨ ∃ r, x = done r := by
  match hx : x with
  | none => exact .inl rfl
  | some r => exact .inr ⟨r, rfl⟩

@[simp] theorem ok_bind (a : α) (g : α → Except ε β) : (Except.ok a >>= g) = g a := rfl

@[simp] theorem error_bind (e : ε) (g : α → Except ε β) :
    (Except.error e >>= g) = .error e := rfl

/-- What a computation of two parts returns. -/
theorem bind_eq_ok {x : Except ε α} {g : α → Except ε β} {b : β} (h : (x >>= g) = .ok b) :
    ∃ a, x = .ok a ∧ g a = .ok b := by
  cases x with
  | error e => cases h
  | ok a => exact ⟨a, rfl, h⟩

@[simp] theorem done_ok_bind (a : α) (g : α → Exec ε β) :
    (done (.ok a) >>= g) = g a := rfl

@[simp] theorem done_error_bind (e : ε) (g : α → Exec ε β) :
    (done (.error e) >>= g) = done (.error e) := rfl

@[simp] theorem noFuel_bind (g : α → Exec ε β) :
    ((noFuel : Exec ε α) >>= g) = noFuel := rfl

/-- A computation of two parts has come to an end: with the second part, or in the first. -/
theorem bind_eq_done {x : Exec ε α} {g : α → Exec ε β} {r : Except ε β} (h : (x >>= g) = done r) :
    (∃ a, x = done (.ok a) ∧ g a = done r) ∨ ∃ e, x = done (.error e) ∧ r = .error e := by
  rcases noFuel_or_done x with rfl | ⟨e | a, rfl⟩
  · exact absurd h (noFuel_ne_done r)
  · exact .inr ⟨e, rfl, (done_inj h).symm⟩
  · exact .inl ⟨a, rfl, h⟩

/-- A computation of two parts that goes right has two parts that do. -/
theorem bind_eq_done_ok {x : Exec ε α} {g : α → Exec ε β} {b : β} (h : (x >>= g) = done (.ok b)) :
    ∃ a, x = done (.ok a) ∧ g a = done (.ok b) := by
  rcases bind_eq_done h with ⟨a, hx, hg⟩ | ⟨e, -, he⟩
  · exact ⟨a, hx, hg⟩
  · cases he

@[simp] theorem lift_eq_done (r : Except ε α) :
    (liftM r : Exec ε α) = done r := rfl

/-! ## Enough fuel -/

/-- `f` ends with `r` whenever it is given enough fuel. -/
def Ends (f : Nat → Exec ε α) (r : Except ε α) : Prop :=
  ∃ fuel, ∀ n, fuel ≤ n → f n = done r

theorem Ends.unique {f : Nat → Exec ε α} {r r' : Except ε α}
    (h : Ends f r) (h' : Ends f r') : r = r' := by
  obtain ⟨n, hn⟩ := h
  obtain ⟨n', hn'⟩ := h'
  exact done_inj ((hn _ (Nat.le_max_left n n')).symm.trans (hn' _ (Nat.le_max_right n n')))

/-- Code without loops ends with any fuel. -/
theorem Ends.const (r : Except ε α) : Ends (fun _ => done r) r :=
  ⟨0, fun _ _ => rfl⟩

theorem Ends.congr {f g : Nat → Exec ε α} {r : Except ε α}
    (hfg : ∀ n, f n = g n) (h : Ends g r) : Ends f r := by
  obtain ⟨n, hn⟩ := h
  exact ⟨n, fun m hm => (hfg m).trans (hn m hm)⟩

/-- One call takes one unit of the fuel. -/
theorem Ends.succ {f g : Nat → Exec ε α} {r : Except ε α} (hfg : ∀ n, f (n + 1) = g n)
    (h : Ends g r) : Ends f r := by
  obtain ⟨n, hn⟩ := h
  refine ⟨n + 1, ?_⟩
  intro m hm
  obtain ⟨k, rfl⟩ : ∃ k, m = k + 1 := ⟨m - 1, by omega⟩
  exact (hfg k).trans (hn k (Nat.le_of_succ_le_succ hm))

theorem Ends.bind {f : Nat → Exec ε α} {g : Nat → α → Exec ε β} {a : α} {r : Except ε β}
    (hf : Ends f (.ok a)) (hg : Ends (fun n => g n a) r) :
    Ends (fun n => f n >>= g n) r := by
  obtain ⟨n, hn⟩ := hf
  obtain ⟨n', hn'⟩ := hg
  refine ⟨max n n', ?_⟩
  intro m hm
  show f m >>= g m = done r
  rw [hn m (Nat.le_trans (Nat.le_max_left n n') hm), done_ok_bind]
  exact hn' m (Nat.le_trans (Nat.le_max_right n n') hm)

/-- After a first part with a known end the outcome is that of the second. -/
theorem Ends.bind_iff {f : Nat → Exec ε α} {g : Nat → α → Exec ε β} {a : α} {r : Except ε β}
    (hf : Ends f (.ok a)) : Ends (fun n => f n >>= g n) r ↔ Ends (fun n => g n a) r := by
  refine ⟨fun ⟨n', hn'⟩ => ?_, hf.bind⟩
  obtain ⟨n, hn⟩ := hf
  refine ⟨max n n', ?_⟩
  intro m hm
  have hm' := hn' m (Nat.le_trans (Nat.le_max_right n n') hm)
  simp only [hn m (Nat.le_trans (Nat.le_max_left n n') hm), done_ok_bind] at hm'
  exact hm'

theorem Ends.bind_error {f : Nat → Exec ε α} {g : Nat → α → Exec ε β} {e : ε}
    (hf : Ends f (.error e)) : Ends (fun n => f n >>= g n) (.error e) := by
  obtain ⟨n, hn⟩ := hf
  refine ⟨n, ?_⟩
  intro m hm
  show f m >>= g m = _
  rw [hn m hm, done_error_bind]

theorem Ends.adapt {ε' : Type} {f : Nat → Exec ε α} {r : Except ε α} (h : Ends f r) (g : ε → ε') :
    Ends (fun n => ExceptT.adapt g (f n)) (r.mapError g) := by
  obtain ⟨n, hn⟩ := h
  refine ⟨n, ?_⟩
  intro m hm
  show ExceptT.adapt g (f m) = _
  rw [hn m hm]
  rfl

/-- A result wrapped up by an injective function comes from what is inside. -/
theorem Ends.map_iff {f : Nat → Exec ε α} {h : α → β} (hinj : ∀ a a', h a = h a' → a = a') {b : β} :
    Ends (fun n => f n >>= fun a => pure (h a)) (.ok b) ↔ ∃ a, h a = b ∧ Ends f (.ok a) := by
  have hinside : ∀ n, (f n >>= fun a => pure (h a)) = done (.ok b) →
      ∃ a, h a = b ∧ f n = done (.ok a) := by
    intro n hn
    rcases bind_eq_done hn with ⟨a, hf, ha⟩ | ⟨e, -, hb⟩
    · exact ⟨a, Except.ok.inj (done_inj ha), hf⟩
    · cases hb
  constructor
  · rintro ⟨n, hn⟩
    obtain ⟨a, ha, -⟩ := hinside n (hn n (Nat.le_refl n))
    refine ⟨a, ha, n, ?_⟩
    intro m hm
    obtain ⟨a', ha', hfm⟩ := hinside m (hn m hm)
    rw [hfm, hinj a' a (ha'.trans ha.symm)]
  · rintro ⟨a, rfl, hf⟩
    exact hf.bind (Ends.const _)

/-- More fuel never changes an outcome. -/
def FuelMono (f : Nat → Exec ε α) : Prop :=
  ∀ (n m : Nat) (r : Except ε α), n ≤ m → f n = done r → f m = done r

theorem FuelMono.ends {f : Nat → Exec ε α} (hf : FuelMono f) {n : Nat} {r : Except ε α}
    (h : f n = done r) : Ends f r :=
  ⟨n, fun m hm => hf n m r hm h⟩

theorem FuelMono.const (x : Exec ε α) : FuelMono fun _ => x := by
  intro n m r _ h
  exact h

theorem FuelMono.bind {f : Nat → Exec ε α} {g : Nat → α → Exec ε β} (hf : FuelMono f)
    (hg : ∀ a, FuelMono fun n => g n a) : FuelMono fun n => f n >>= g n := by
  intro n m r hnm h
  show f m >>= g m = done r
  rcases bind_eq_done h with ⟨a, hfn, hgn⟩ | ⟨e, hfn, rfl⟩
  · rw [hf n m _ hnm hfn, done_ok_bind]
    exact hg a n m r hnm hgn
  · rw [hf n m _ hnm hfn, done_error_bind]

/-- Behind a first part with a known end the run is that of the second. -/
theorem FuelMono.bind_eq_done {f : Nat → Exec ε α} {g : α → Exec ε β} {a : α} {r : Except ε β}
    {n : Nat} (hf : FuelMono f) (hend : Ends f (.ok a)) (h : (f n >>= g) = done r) :
    g a = done r := by
  rcases Prog.bind_eq_done h with ⟨b, hb, hg⟩ | ⟨e, he, -⟩
  · obtain rfl := Except.ok.inj ((hf.ends hb).unique hend)
    exact hg
  · cases (hf.ends he).unique hend

/-- A computation of two parts ends when both do, or the first one has gone wrong. -/
theorem Ends.bind_cases {f : Nat → Exec ε α} {g : Nat → α → Exec ε β} {r : Except ε β}
    (hf : FuelMono f) (h : Ends (fun n => f n >>= g n) r) :
    (∃ a, Ends f (.ok a) ∧ Ends (fun n => g n a) r) ∨ ∃ e, Ends f (.error e) ∧ r = .error e := by
  obtain ⟨n, hn⟩ := h
  rcases bind_eq_done (hn n (Nat.le_refl n)) with ⟨a, hfn, -⟩ | ⟨e, hfn, hr⟩
  · have hfa : Ends f (.ok a) := hf.ends hfn
    exact .inl ⟨a, hfa, hfa.bind_iff.mp ⟨n, hn⟩⟩
  · exact .inr ⟨e, hf.ends hfn, hr⟩

/-- The computation goes wrong when it is given enough fuel. -/
def GoesWrong (f : Nat → Exec ε α) : Prop := ∃ e, Ends f (.error e)

/-- What goes right has a first part that goes right, and a second one wherever the first one
ends. -/
theorem not_goesWrong_bind {f : Nat → Exec ε α} {g : Nat → α → Exec ε β} (hf : FuelMono f) :
    ¬ GoesWrong (fun n => f n >>= g n) ↔
      ¬ GoesWrong f ∧ ∀ a, Ends f (.ok a) → ¬ GoesWrong fun n => g n a := by
  constructor
  · intro hright
    refine ⟨?_, ?_⟩
    · rintro ⟨e, he⟩
      exact hright ⟨e, he.bind_error⟩
    · rintro a ha ⟨e, he⟩
      exact hright ⟨e, ha.bind he⟩
  · rintro ⟨hfirst, hsecond⟩ ⟨e, he⟩
    rcases he.bind_cases hf with ⟨a, ha, hg⟩ | ⟨e', he', -⟩
    · exact hsecond a ha ⟨e, hg⟩
    · exact hfirst ⟨e', he'⟩

theorem not_goesWrong_done {x : Except ε α} {g : Nat → α → Exec ε β}
    (h : ¬ GoesWrong fun n => done x >>= g n) :
    ∃ a, x = .ok a ∧ ¬ GoesWrong fun n => g n a := by
  cases x with
  | ok a => exact ⟨a, rfl, h⟩
  | error e => exact absurd ⟨e, Ends.const _⟩ h

theorem not_goesWrong_of_ok {f : Nat → Exec ε α} {a : α} (h : Ends f (.ok a)) : ¬ GoesWrong f := by
  rintro ⟨e, he⟩
  exact absurd (h.unique he) (by simp)

/-- A run of operations, each of which ends and carries the invariant `I`,
indexed by the operations done so far, one further. -/
theorem Ends.foldlM {ι : Type} {step : Nat → σ → ι → Exec ε σ} {I : List ι → σ → Prop}
    {s : σ} (hnil : I [] s) : ∀ (ops : List ι),
    (∀ past op, past ++ [op] <+: ops → ∀ s, I past s →
      ∃ s', Ends (fun n => step n s op) (.ok s') ∧ I (past ++ [op]) s') →
    ∃ s', Ends (fun n => ops.foldlM (step n) s) (.ok s') ∧ I ops s' := by
  intro ops
  induction ops using List.reverseRecOn with
  | nil => exact fun _ => ⟨s, Ends.const (.ok s), hnil⟩
  | append_singleton past op ih =>
      intro hstep
      obtain ⟨s₁, h₁, hI₁⟩ := ih fun past' op' hp => hstep past' op' (hp.trans (List.prefix_append _ _))
      obtain ⟨s₂, h₂, hI₂⟩ := hstep past op (List.prefix_refl _) s₁ hI₁
      refine ⟨s₂, (Ends.bind (g := fun n s => step n s op) h₁ h₂).congr fun n => ?_, hI₂⟩
      simp only [List.foldlM_append, List.foldlM_cons, List.foldlM_nil, bind_pure]

/-! ## Loops -/

/-- What one turn of a loop decides: to go round again from a new state, or to
leave with a result. -/
inductive Turn (σ ρ : Type) where
  | again (s : σ)
  | stop (r : ρ)
  deriving DecidableEq, Repr

/-- Run the turns of a loop until one leaves it, at most `fuel` of them. -/
def loop (turn : σ → Except ε (Turn σ ρ)) : Nat → σ → Exec ε ρ
  | 0, _ => noFuel
  | fuel + 1, s =>
      match turn s with
      | .error e => done (.error e)
      | .ok (.stop r) => done (.ok r)
      | .ok (.again s') => loop turn fuel s'

section
variable {turn : σ → Except ε (Turn σ ρ)} {s s' s'' : σ} {n : Nat}

theorem loop_again (h : turn s = .ok (.again s')) :
    loop turn (n + 1) s = loop turn n s' := by simp only [loop, h]

theorem loop_stop {r : ρ} (h : turn s = .ok (.stop r)) :
    loop turn (n + 1) s = done (.ok r) := by simp only [loop, h]

theorem loop_error {e : ε} (h : turn s = .error e) :
    loop turn (n + 1) s = done (.error e) := by simp only [loop, h]

theorem loop_mono (turn : σ → Except ε (Turn σ ρ)) (s : σ) :
    FuelMono (fun n => loop turn n s) := by
  intro n
  induction n generalizing s with
  | zero => intro m r _ h; exact absurd h (noFuel_ne_done r)
  | succ n ih =>
      intro m r hnm h
      obtain ⟨m, rfl⟩ : ∃ k, m = k + 1 := ⟨m - 1, by omega⟩
      simp only [loop] at h ⊢
      match hs : turn s with
      | .error _ => simpa only [hs] using h
      | .ok (.stop _) => simpa only [hs] using h
      | .ok (.again s') =>
          simp only [hs] at h
          exact ih s' m r (Nat.le_of_succ_le_succ hnm) h

theorem Ends.loop_stop {r : ρ} (h : turn s = .ok (.stop r)) :
    Ends (fun n => loop turn n s) (.ok r) :=
  (loop_mono turn s).ends (n := 1) (Prog.loop_stop h)

theorem Ends.loop_error {e : ε} (h : turn s = .error e) :
    Ends (fun n => loop turn n s) (.error e) :=
  (loop_mono turn s).ends (n := 1) (Prog.loop_error h)

/-! ### The first turns -/

/-- Where the loop is after its first turns, `n` of them if it has not come to an end. -/
def after (turn : σ → Except ε (Turn σ ρ)) : Nat → σ → Except ε (Turn σ ρ)
  | 0, s => .ok (.again s)
  | n + 1, s =>
      match turn s with
      | .ok (.again s') => after turn n s'
      | r => r

/-- With fuel for `n` turns the loop ends as it has after `n` turns. -/
theorem loop_eq_after (turn : σ → Except ε (Turn σ ρ)) (n : Nat) (s : σ) :
    loop turn n s = match after turn n s with
      | .ok (.again _) => noFuel
      | .ok (.stop r) => done (.ok r)
      | .error e => done (.error e) := by
  induction n generalizing s with
  | zero => rfl
  | succ n ih =>
      simp only [loop, after]
      cases hs : turn s with
      | error e => rfl
      | ok t =>
          cases t with
          | stop r => rfl
          | again s' => exact ih s'

/-- The first of the turns, and the others. -/
theorem again_of_after (h : after turn (n + 1) s = .ok (.again s'')) :
    ∃ s', turn s = .ok (.again s') ∧ after turn n s' = .ok (.again s'') := by
  rw [after] at h
  split at h
  · rename_i s' hfirst
    exact ⟨s', hfirst, h⟩
  · rename_i hother
    exact absurd h (hother s'')

/-- An invariant that counts the turns taken. -/
theorem after_invariant {I : Nat → σ → Prop}
    (hturn : ∀ k s s', I k s → turn s = .ok (.again s') → I (k + 1) s') {k : Nat} (hs : I k s)
    (h : after turn n s = .ok (.again s')) : I (k + n) s' := by
  induction n generalizing k s with
  | zero =>
      obtain rfl := Turn.again.inj (Except.ok.inj h)
      exact hs
  | succ n ih =>
      obtain ⟨s₁, hfirst, hrest⟩ := again_of_after h
      rw [Nat.add_comm n 1, ← Nat.add_assoc]
      exact ih (hturn k s s₁ hs hfirst) hrest

/-! ### Symbolic execution: some turns taken first -/

/-- Some turns lead from `s` to `s'`, none of which leaves the loop. -/
inductive Turns (turn : σ → Except ε (Turn σ ρ)) : σ → σ → Prop
  | refl (s : σ) : Turns turn s s
  | head {s s' s'' : σ} : turn s = .ok (.again s') → Turns turn s' s'' → Turns turn s s''

theorem Turns.single (h : turn s = .ok (.again s')) : Turns turn s s' :=
  .head h (.refl s')

theorem Turns.trans (h : Turns turn s s') (h' : Turns turn s' s'') : Turns turn s s'' := by
  induction h with
  | refl _ => exact h'
  | head hs _ ih => exact .head hs (ih h')

theorem Turns.of_after (h : after turn n s = .ok (.again s')) : Turns turn s s' := by
  induction n generalizing s with
  | zero =>
      obtain rfl := Turn.again.inj (Except.ok.inj h)
      exact .refl s
  | succ n ih =>
      obtain ⟨s₁, hfirst, hrest⟩ := again_of_after h
      exact .head hfirst (ih hrest)

theorem Ends.of_turns {r : Except ε ρ} (h : Turns turn s s')
    (h' : Ends (fun n => loop turn n s') r) : Ends (fun n => loop turn n s) r := by
  induction h with
  | refl _ => exact h'
  | head hs _ ih =>
      obtain ⟨n, hn⟩ := ih h'
      refine ⟨n + 1, ?_⟩
      intro m hm
      obtain ⟨m, rfl⟩ : ∃ k, m = k + 1 := ⟨m - 1, by omega⟩
      exact (loop_again hs).trans (hn m (Nat.le_of_succ_le_succ hm))

/-- The other way round: what the loop ends with, it ends with behind its first turns. -/
theorem Ends.behind_turns {r : Except ε ρ} (h : Turns turn s s')
    (h' : Ends (fun n => loop turn n s) r) : Ends (fun n => loop turn n s') r := by
  induction h with
  | refl _ => exact h'
  | head hs _ ih =>
      obtain ⟨n, hn⟩ := h'
      apply ih
      refine ⟨n, ?_⟩
      intro m hm
      exact (loop_again hs).symm.trans (hn (m + 1) (Nat.le_succ_of_le hm))

/-! ### The rules for a whole loop -/

/-- **Partial correctness.**  What every further turn keeps holds where the loop is left. -/
theorem loop_invariant {I : σ → Prop} {Q : ρ → Prop} {r : ρ}
    (hagain : ∀ s s', I s → turn s = .ok (.again s') → I s')
    (hstop : ∀ s r, I s → turn s = .ok (.stop r) → Q r) (hs : I s)
    (h : loop turn n s = done (.ok r)) : Q r := by
  induction n generalizing s with
  | zero => exact absurd h (noFuel_ne_done _)
  | succ n ih =>
      cases hturn : turn s with
      | error e =>
          rw [Prog.loop_error hturn] at h
          cases done_inj h
      | ok t =>
          cases t with
          | again s' =>
              rw [loop_again hturn] at h
              exact ih (hagain s s' hs hturn) h
          | stop r' =>
              rw [Prog.loop_stop hturn] at h
              obtain rfl := Except.ok.inj (done_inj h)
              exact hstop s r' hs hturn

/-- What a turn from `s`, at measure `m`, has to do for the invariant `I` and the
postcondition `Q` on outcomes: go on at a smaller measure, or end as required. -/
def TurnOk (turn : σ → Except ε (Turn σ ρ)) (I : Nat → σ → Prop) (Q : Except ε ρ → Prop)
    (m : Nat) (s : σ) : Prop :=
  (∃ s' m', turn s = .ok (.again s') ∧ I m' s' ∧ m' < m) ∨
  (∃ r, turn s = .ok (.stop r) ∧ Q (.ok r)) ∨
  (∃ e, turn s = .error e ∧ Q (.error e))

/-- **Total correctness.**  Under an invariant with a measure that every further
turn lowers, the loop ends within the measure's number of turns plus one, and
its outcome meets the postcondition. -/
theorem loop_variant {I : Nat → σ → Prop} {Q : Except ε ρ → Prop} {m : Nat}
    (hturn : ∀ m s, I m s → TurnOk turn I Q m s) (hs : I m s) :
    ∃ r, Q r ∧ ∀ n, m < n → loop turn n s = done r := by
  induction m using Nat.strongRecOn generalizing s with
  | ind m ih =>
      rcases hturn m s hs with ⟨s', m', ht, hs', hlt⟩ | ⟨r, ht, hr⟩ | ⟨e, ht, he⟩
      · obtain ⟨r, hr, hn⟩ := ih m' hlt hs'
        refine ⟨r, hr, ?_⟩
        intro k hk
        obtain ⟨k, rfl⟩ : ∃ j, k = j + 1 := ⟨k - 1, by omega⟩
        exact (loop_again ht).trans (hn k (by omega))
      · refine ⟨.ok r, hr, ?_⟩
        intro k hk
        obtain ⟨k, rfl⟩ : ∃ j, k = j + 1 := ⟨k - 1, by omega⟩
        exact loop_stop ht
      · refine ⟨.error e, he, ?_⟩
        intro k hk
        obtain ⟨k, rfl⟩ : ∃ j, k = j + 1 := ⟨k - 1, by omega⟩
        exact loop_error ht

/-- `loop_variant` with the number of turns abstracted away. -/
theorem loop_variant_ends {I : Nat → σ → Prop} {Q : Except ε ρ → Prop} {m : Nat}
    (hturn : ∀ m s, I m s → TurnOk turn I Q m s) (hs : I m s) :
    ∃ r, Q r ∧ Ends (fun n => loop turn n s) r := by
  obtain ⟨r, hr, hn⟩ := loop_variant hturn hs
  exact ⟨r, hr, m + 1, fun n hle => hn n hle⟩

/-- **Endless loops.**  Under an invariant that every turn keeps, going round again, there is no
end. -/
theorem not_ends_of_again {I : σ → Prop}
    (hturn : ∀ s, I s → ∃ s', turn s = .ok (.again s') ∧ I s') (hs : I s) (r : Except ε ρ) :
    ¬ Ends (fun n => loop turn n s) r := by
  have hfuel : ∀ n s, I s → loop turn n s = noFuel := by
    intro n
    induction n with
    | zero => exact fun _ _ => rfl
    | succ n ih =>
        intro s hs
        obtain ⟨s', hagain, hs'⟩ := hturn s hs
        rw [loop_again hagain, ih s' hs']
  rintro ⟨n, hn⟩
  exact noFuel_ne_done r ((hfuel n s hs).symm.trans (hn n (Nat.le_refl n)))

/-- The same with several turns a round. -/
theorem not_ends_of_turns {I : σ → Prop}
    (hround : ∀ s, I s → ∃ s', turn s = .ok (.again s') ∧ ∃ s'', Turns turn s' s'' ∧ I s'')
    (hs : I s) (r : Except ε ρ) : ¬ Ends (fun n => loop turn n s) r := by
  refine not_ends_of_again (I := fun t => ∃ s', Turns turn t s' ∧ I s') ?_ ⟨s, .refl s, hs⟩ r
  rintro t ⟨s', hturns, hs'⟩
  cases hturns with
  | refl _ => exact hround t hs'
  | head hturn hrest => exact ⟨_, hturn, s', hrest, hs'⟩

end

end Prog
