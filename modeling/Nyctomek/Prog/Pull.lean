/-
# `Prog.Pull` — iterators that are asked for their next item

A pull iterator is a state and a computation that gives the next item, or none at
the end, and the new state.  `Yields next s as` says that asking again and again
from `s` gives the items `as` and then none.  Iterators that ask other iterators are
described by a rule each, from what the child yields to what they yield:

    filterNext p      the items with `p`         a loop over the child
    takeNext          the first ones             a counter
    mapNext f         the items' images          up to the first that has none
    logNext           the items                  keeps a list of them
    collect check     all of them, as a list     a loop over the child, to its end

An iterator may also fail; `Gives next s r` has what comes of it either way.
-/
import Mathlib.Data.List.Forall2
import Nyctomek.Prog.Loop

namespace Prog

variable {ε α β σ ρ : Type}

/-- With some fuel, from a state: the next item or none, and the new state. -/
abbrev Pull (ε σ α : Type) := Nat → σ → Exec ε (Option α × σ)

/-! ## Loops whose turns need fuel themselves -/

/-- At most `turns` turns, each with the same fuel. -/
def loopOf (turn : Nat → σ → Exec ε (Turn σ ρ)) (fuel : Nat) : (turns : Nat) → σ → Exec ε ρ
  | 0, _ => noFuel
  | turns + 1, s => turn fuel s >>= fun
      | .stop r => pure r
      | .again s' => loopOf turn fuel turns s'

/-- With enough fuel and enough turns the loop ends with `r`. -/
def LoopEnds (turn : Nat → σ → Exec ε (Turn σ ρ)) (s : σ) (r : Except ε ρ) : Prop :=
  ∃ enough, ∀ fuel turns, enough ≤ fuel → enough ≤ turns → loopOf turn fuel turns s = done r

section
variable {turn : Nat → σ → Exec ε (Turn σ ρ)} {s s' : σ} {r : Except ε ρ} {v : ρ}

theorem LoopEnds.ends (h : LoopEnds turn s r) : Ends (fun n => loopOf turn n n s) r := by
  obtain ⟨enough, hloop⟩ := h
  exact ⟨enough, fun n hn => hloop n n hn hn⟩

theorem LoopEnds.stop (h : Ends (fun n => turn n s) (.ok (.stop v))) : LoopEnds turn s (.ok v) := by
  obtain ⟨enough, hturn⟩ := h
  refine ⟨enough + 1, ?_⟩
  intro fuel turns hfuel hturns
  obtain ⟨turns, rfl⟩ : ∃ k, turns = k + 1 := ⟨turns - 1, by omega⟩
  have hfirst : turn fuel s = done (.ok (.stop v)) := hturn fuel (by omega)
  rw [loopOf, hfirst, done_ok_bind]
  rfl

theorem LoopEnds.error {e : ε} (h : Ends (fun n => turn n s) (.error e)) :
    LoopEnds turn s (.error e) := by
  obtain ⟨enough, hturn⟩ := h
  refine ⟨enough + 1, ?_⟩
  intro fuel turns hfuel hturns
  obtain ⟨turns, rfl⟩ : ∃ k, turns = k + 1 := ⟨turns - 1, by omega⟩
  have hfirst : turn fuel s = done (.error e) := hturn fuel (by omega)
  rw [loopOf, hfirst, done_error_bind]

theorem LoopEnds.again (h : Ends (fun n => turn n s) (.ok (.again s'))) (h' : LoopEnds turn s' r) :
    LoopEnds turn s r := by
  obtain ⟨enough, hturn⟩ := h
  obtain ⟨enough', hloop⟩ := h'
  refine ⟨max enough enough' + 1, ?_⟩
  intro fuel turns hfuel hturns
  obtain ⟨turns, rfl⟩ : ∃ k, turns = k + 1 := ⟨turns - 1, by omega⟩
  have hfirst : turn fuel s = done (.ok (.again s')) := hturn fuel (by omega)
  rw [loopOf, hfirst, done_ok_bind]
  exact hloop fuel turns (by omega) (by omega)

end

/-! ## What an iterator yields -/

/-- Asked again and again from the state, the iterator gives the items and then none. -/
inductive Yields (next : Pull ε σ α) : σ → List α → Prop
  | nil {s s' : σ} : Ends (fun n => next n s) (.ok (none, s')) → Yields next s []
  | cons {s s' : σ} {a : α} {as : List α} :
      Ends (fun n => next n s) (.ok (some a, s')) → Yields next s' as → Yields next s (a :: as)

variable {next : Pull ε σ α} {s : σ} {as as' : List α}

theorem Yields.unique (h : Yields next s as) (h' : Yields next s as') : as = as' := by
  induction h generalizing as' with
  | nil hend =>
      cases h' with
      | nil _ => rfl
      | cons hsome _ =>
          have heq := Except.ok.inj (hend.unique hsome)
          simp at heq
  | cons hsome _ ih =>
      cases h' with
      | nil hend =>
          have heq := Except.ok.inj (hend.unique hsome)
          simp at heq
      | cons hsome' hrest =>
          obtain ⟨heq, rfl⟩ := Prod.mk.inj (Except.ok.inj (hsome.unique hsome'))
          obtain rfl := Option.some.inj heq
          rw [ih hrest]

/-- However often it is asked, the iterator gives none. -/
def Exhausted (next : Pull ε σ α) (s : σ) : Prop :=
  ∃ P : σ → Prop, P s ∧ ∀ s, P s → ∃ s', Ends (fun n => next n s) (.ok (none, s')) ∧ P s'

/-- The iterator gives the items and then none, however often it is asked. -/
inductive Streams (next : Pull ε σ α) : σ → List α → Prop
  | nil {s : σ} : Exhausted next s → Streams next s []
  | cons {s s' : σ} {a : α} {as : List α} :
      Ends (fun n => next n s) (.ok (some a, s')) → Streams next s' as → Streams next s (a :: as)

theorem Exhausted.ends {s : σ} (h : Exhausted next s) :
    ∃ s', Ends (fun n => next n s) (.ok (none, s')) ∧ Exhausted next s' := by
  obtain ⟨P, hs, hP⟩ := h
  obtain ⟨s', hend, hs'⟩ := hP s hs
  exact ⟨s', hend, P, hs', hP⟩

/-! ### The items of a list -/

/-- The state is what is left of the list. -/
def listNext : Pull ε (List α) α := fun _ s =>
  match s with
  | [] => pure (none, [])
  | a :: rest => pure (some a, rest)

theorem yields_listNext (as : List α) : Yields (listNext : Pull ε (List α) α) as as := by
  induction as with
  | nil => exact .nil (Ends.const _)
  | cons a as ih => exact .cons (Ends.const _) ih

theorem streams_listNext (as : List α) : Streams (listNext : Pull ε (List α) α) as as := by
  induction as with
  | nil =>
      refine .nil ⟨(· = []), rfl, ?_⟩
      rintro s rfl
      exact ⟨[], Ends.const _, rfl⟩
  | cons a as ih => exact .cons (Ends.const _) ih

/-! ### The first items -/

/-- The state has the number of items that are still to be asked for. -/
def takeNext (next : Pull ε σ α) : Pull ε (Nat × σ) α := fun fuel s =>
  match s.1 with
  | 0 => pure (none, s)
  | n + 1 => do
      let (item, child) ← next fuel s.2
      return (item, (n, child))

theorem Yields.takeNext (h : Yields next s as) (n : Nat) :
    Yields (takeNext next) (n, s) (as.take n) := by
  induction h generalizing n with
  | nil hend =>
      rw [List.take_nil]
      cases n with
      | zero => exact .nil (Ends.const _)
      | succ n => exact .nil (hend.bind (Ends.const _))
  | cons hsome _ ih =>
      cases n with
      | zero => exact .nil (Ends.const _)
      | succ n => exact .cons (hsome.bind (Ends.const _)) (ih n)

/-! ### The images of the items -/

/-- An item without image is taken for the end. -/
def mapNext (f : α → Option β) (next : Pull ε σ α) : Pull ε σ β := fun fuel s => do
  let (item, child) ← next fuel s
  return (item.bind f, child)

theorem Yields.mapNext {f : α → Option β} {g : α → β} (h : Yields next s as)
    (hf : ∀ a ∈ as, f a = some (g a)) : Yields (mapNext f next) s (as.map g) := by
  induction h with
  | nil hend => exact .nil (hend.bind (Ends.const _))
  | cons hsome _ ih =>
      obtain ⟨ha, has⟩ := List.forall_mem_cons.mp hf
      refine .cons (hsome.bind ?_) (ih has)
      simp only [Option.bind_some, ha]
      exact Ends.const _

/-! ### The items with a property -/

/-- Ask until an item has the property. -/
def filterTurn (p : α → Bool) (next : Pull ε σ α) (fuel : Nat) (s : σ) :
    Exec ε (Turn σ (Option α × σ)) := do
  match ← next fuel s with
  | (some a, child) => if p a then return .stop (some a, child) else return .again child
  | (none, child) => return .stop (none, child)

def filterNext (p : α → Bool) (next : Pull ε σ α) : Pull ε σ α := fun fuel s =>
  loopOf (filterTurn p next) fuel fuel s

/-- What the loop comes to: none, or an item and a state that yields the rest. -/
def FilterYields (p : α → Bool) (next : Pull ε σ α) (s : σ) : List α → Prop
  | [] => ∃ s', LoopEnds (filterTurn p next) s (.ok (none, s'))
  | b :: bs => ∃ s', LoopEnds (filterTurn p next) s (.ok (some b, s')) ∧
      Yields (filterNext p next) s' bs

theorem FilterYields.yields {p : α → Bool} {bs : List α} (h : FilterYields p next s bs) :
    Yields (filterNext p next) s bs := by
  cases bs with
  | nil =>
      obtain ⟨s', hloop⟩ := h
      exact .nil hloop.ends
  | cons b bs =>
      obtain ⟨s', hloop, hrest⟩ := h
      exact .cons hloop.ends hrest

theorem FilterYields.again {p : α → Bool} {s' : σ} {bs : List α}
    (hturn : Ends (fun n => filterTurn p next n s) (.ok (.again s')))
    (h : FilterYields p next s' bs) : FilterYields p next s bs := by
  cases bs with
  | nil =>
      obtain ⟨s'', hloop⟩ := h
      exact ⟨s'', .again hturn hloop⟩
  | cons b bs =>
      obtain ⟨s'', hloop, hrest⟩ := h
      exact ⟨s'', .again hturn hloop, hrest⟩

theorem Yields.filterYields {p : α → Bool} (h : Yields next s as) :
    FilterYields p next s (as.filter p) := by
  induction h with
  | @nil s s' hend => exact ⟨s', .stop (hend.bind (Ends.const _))⟩
  | @cons s s' a as hsome _ ih =>
      by_cases hp : p a
      · rw [List.filter_cons_of_pos hp]
        refine ⟨s', .stop (hsome.bind ?_), ih.yields⟩
        simp only [hp, if_true]
        exact Ends.const _
      · rw [List.filter_cons_of_neg hp]
        refine ih.again (hsome.bind ?_)
        simp only [hp]
        exact Ends.const _

theorem Yields.filterNext {p : α → Bool} (h : Yields next s as) :
    Yields (filterNext p next) s (as.filter p) :=
  h.filterYields.yields

/-! ### All of the items -/

/-- Ask to the end, and put what the items are checked to into the buffer. -/
def collectTurn (check : α → Except ε β) (next : Pull ε σ α) (fuel : Nat) (s : List β × σ) :
    Exec ε (Turn (List β × σ) (List β × σ)) := do
  match ← next fuel s.2 with
  | (some a, child) => do
      let b ← check a
      return .again (s.1 ++ [b], child)
  | (none, child) => return .stop (s.1, child)

def collect (check : α → Except ε β) (next : Pull ε σ α) (fuel : Nat) (s : σ) :
    Exec ε (List β × σ) :=
  loopOf (collectTurn check next) fuel fuel ([], s)

theorem Yields.collect {check : α → Except ε β} (h : Yields next s as) {bs : List β}
    (hcheck : List.Forall₂ (fun a b => check a = .ok b) as bs) :
    ∃ s', Ends (fun n => Prog.collect check next n s) (.ok (bs, s')) := by
  have hloop : ∀ buffer, ∃ s', LoopEnds (collectTurn check next) (buffer, s) (.ok (buffer ++ bs, s')) := by
    induction h generalizing bs with
    | @nil s s' hend =>
        cases hcheck
        intro buffer
        rw [List.append_nil]
        exact ⟨s', .stop (hend.bind (Ends.const _))⟩
    | @cons s s' a as hsome _ ih =>
        cases hcheck with
        | cons hb hbs =>
            rename_i b bs
            intro buffer
            obtain ⟨s'', hloop⟩ := ih hbs (buffer ++ [b])
            rw [List.append_assoc] at hloop
            refine ⟨s'', .again (hsome.bind ?_) hloop⟩
            simp only [hb]
            exact Ends.const _
  obtain ⟨s', hend⟩ := hloop []
  exact ⟨s', hend.ends⟩

/-- Without a check all of them are collected. -/
theorem Yields.collect_ok (h : Yields next s as) :
    ∃ s', Ends (fun n => Prog.collect .ok next n s) (.ok (as, s')) :=
  h.collect (List.forall₂_same.mpr fun _ _ => rfl)

/-! ### What has been asked for -/

/-- The state has the items that have been given, too. -/
def logNext (next : Pull ε σ α) : Pull ε (List α × σ) α := fun fuel s => do
  let (item, child) ← next fuel s.2
  return (item, (s.1 ++ item.toList, child))

theorem Ends.logNext {item : Option α} {s' : σ} (h : Ends (fun n => next n s) (.ok (item, s')))
    (log : List α) :
    Ends (fun n => Prog.logNext next n (log, s)) (.ok (item, (log ++ item.toList, s'))) :=
  h.bind (Ends.const _)

/-- From a list, an item with a property is asked for together with those before it. -/
theorem filterNext_logNext (p : α → Bool) (log as : List α) : ∃ k item,
    Ends (fun n => (filterNext p (logNext listNext) n (log, as) : Exec ε _))
      (.ok (item, (log ++ as.take k, as.drop k))) ∧ item.toList = (as.take k).filter p := by
  have hloop : ∃ k item, LoopEnds (ε := ε) (filterTurn p (logNext listNext)) (log, as)
      (.ok (item, (log ++ as.take k, as.drop k))) ∧ item.toList = (as.take k).filter p := by
    induction as generalizing log with
    | nil =>
        have hnone : Ends (fun n => (listNext : Pull ε (List α) α) n []) (.ok (none, [])) := Ends.const _
        exact ⟨0, none, .stop ((hnone.logNext log).bind (Ends.const _)), rfl⟩
    | cons a as ih =>
        have hsome : Ends (fun n => (listNext : Pull ε (List α) α) n (a :: as)) (.ok (some a, as)) :=
          Ends.const _
        by_cases hp : p a
        · refine ⟨1, some a, .stop ((hsome.logNext log).bind ?_), by simp [hp]⟩
          simp only [hp, if_true]
          exact Ends.const _
        · obtain ⟨k, item, hrest, hitem⟩ := ih (log ++ [a])
          have hagain : Ends (fun n => filterTurn p (Prog.logNext listNext) n (log, a :: as))
              (.ok (.again (log ++ [a], as)) : Except ε _) := by
            refine (hsome.logNext log).bind ?_
            simp only [hp]
            exact Ends.const _
          refine ⟨k + 1, item, .again hagain ?_, ?_⟩
          · rw [List.take_succ_cons, List.drop_succ_cons, List.append_cons log a (as.take k)]
            exact hrest
          · rw [hitem, List.take_succ_cons, List.filter_cons_of_neg hp]
  obtain ⟨k, item, hend, hitem⟩ := hloop
  exact ⟨k, item, hend.ends, hitem⟩

/-- The items up to the first without image. -/
def upTo (f : α → Option β) : List α → List α
  | [] => []
  | a :: as => a :: if (f a).isSome then upTo f as else []

/-- All are read if all but the last have images. -/
theorem upTo_eq_self {f : α → Option β} :
    upTo f as = as ↔ ∀ a ∈ as.dropLast, (f a).isSome = true := by
  induction as with
  | nil => simp [upTo]
  | cons a as ih =>
      rw [upTo, List.cons.injEq, eq_self_iff_true, true_and]
      cases as with
      | nil => simp [upTo]
      | cons a' as =>
          rw [List.dropLast_cons_cons, List.forall_mem_cons]
          cases hf : (f a).isSome with
          | true => rw [if_pos rfl, ih, eq_self_iff_true, true_and]
          | false => simp

theorem Ends.mapNext {f : α → Option β} {item : Option α} {s' : σ}
    (h : Ends (fun n => next n s) (.ok (item, s'))) :
    Ends (fun n => Prog.mapNext f next n s) (.ok (item.bind f, s')) :=
  h.bind (Ends.const _)

/-- An item without image ends the loop over the images; up to it the items are asked for. -/
theorem Yields.collect_mapNext {f : α → Option β} (h : Yields next s as) :
    ∃ s', Ends (fun n => Prog.collect .ok (Prog.mapNext f (logNext next)) n ([], s))
      (.ok ((upTo f as).filterMap f, (upTo f as, s'))) := by
  have hloop : ∀ buffer log, ∃ s', LoopEnds (collectTurn .ok (Prog.mapNext f (logNext next)))
      (buffer, (log, s)) (.ok (buffer ++ (upTo f as).filterMap f, (log ++ upTo f as, s'))) := by
    induction h with
    | @nil s s' hend =>
        intro buffer log
        refine ⟨s', .stop ((hend.logNext log).mapNext.bind ?_)⟩
        rw [upTo, List.filterMap_nil, List.append_nil]
        exact Ends.const _
    | @cons s s' a as hsome _ ih =>
        intro buffer log
        have himage : Ends (fun n => Prog.mapNext f (Prog.logNext next) n (log, s))
            (.ok (f a, (log ++ [a], s'))) := (hsome.logNext log).mapNext
        cases hf : f a with
        | none =>
            rw [hf] at himage
            refine ⟨s', .stop (himage.bind ?_)⟩
            rw [upTo, hf, List.filterMap_cons_none hf]
            simp only [Option.isSome_none, Bool.false_eq_true, if_false, List.filterMap_nil,
              List.append_nil]
            exact Ends.const _
        | some b =>
            rw [hf] at himage
            obtain ⟨s'', hrest⟩ := ih (buffer ++ [b]) (log ++ [a])
            have hupTo : upTo f (a :: as) = a :: upTo f as := by
              rw [upTo, hf]
              rfl
            rw [hupTo, List.filterMap_cons_some hf, List.append_cons, List.append_cons log]
            exact ⟨s'', .again (himage.bind (Ends.const _)) hrest⟩
  obtain ⟨s', hend⟩ := hloop [] []
  exact ⟨s', hend.ends⟩

/-- What is behind the first item without image is never asked for. -/
theorem Yields.mapNext_takeWhile {f : α → Option β} (h : Yields next s as) :
    Yields (Prog.mapNext f next) s ((as.takeWhile fun a => (f a).isSome).filterMap f) := by
  induction h with
  | nil hend => exact .nil (hend.bind (Ends.const _))
  | @cons s s' a as hsome _ ih =>
      have himage := hsome.mapNext (f := f)
      rw [Option.bind_some] at himage
      cases hf : f a with
      | none =>
          rw [hf] at himage
          rw [List.takeWhile_cons_of_neg (by simp [hf])]
          exact .nil himage
      | some b =>
          rw [hf] at himage
          rw [List.takeWhile_cons_of_pos (by simp [hf]), List.filterMap_cons_some hf]
          exact .cons himage ih

/-! ### Failures -/

/-- Asked again and again from the state, the iterator gives items and then none, or it fails
when it is asked first. -/
inductive Gives (next : Pull ε σ α) (s : σ) : Except ε (List α) → Prop
  | items {as : List α} : Yields next s as → Gives next s (.ok as)
  | fails {e : ε} : Ends (fun n => next n s) (.error e) → Gives next s (.error e)

theorem Gives.unique {r r' : Except ε (List α)} (h : Gives next s r) (h' : Gives next s r') :
    r = r' := by
  have hfirst : ∀ {as : List α} {e : ε}, Yields next s as →
      ¬Ends (fun n => next n s) (.error e) := by
    intro as e hyields hfails
    cases hyields with
    | nil hend => cases hend.unique hfails
    | cons hsome _ => cases hsome.unique hfails
  cases h with
  | items hyields =>
      cases h' with
      | items hyields' => rw [hyields.unique hyields']
      | fails hfails => exact absurd hfails (hfirst hyields)
  | fails hfails =>
      cases h' with
      | items hyields => exact absurd hfails (hfirst hyields)
      | fails hfails' => exact congrArg Except.error (Except.error.inj (hfails.unique hfails'))

/-- Two iterators that give the same once give the same always. -/
theorem Gives.iff {σ' : Type} {next' : Pull ε σ' α} {s' : σ'} {r : Except ε (List α)}
    (h : Gives next s r) (h' : Gives next' s' r) (r' : Except ε (List α)) :
    Gives next s r' ↔ Gives next' s' r' := by
  constructor
  · intro hr
    rwa [hr.unique h]
  · intro hr
    rwa [hr.unique h']

section
variable {e : ε}

theorem Ends.takeNext_error (h : Ends (fun n => next n s) (.error e)) (k : Nat) :
    Ends (fun n => Prog.takeNext next n (k + 1, s)) (.error e) :=
  h.bind_error

theorem Ends.mapNext_error {f : α → Option β} (h : Ends (fun n => next n s) (.error e)) :
    Ends (fun n => Prog.mapNext f next n s) (.error e) :=
  h.bind_error

theorem Ends.filterNext_error {p : α → Bool} (h : Ends (fun n => next n s) (.error e)) :
    Ends (fun n => Prog.filterNext p next n s) (.error e) :=
  (LoopEnds.error h.bind_error).ends

theorem Ends.collect_error {check : α → Except ε β} (h : Ends (fun n => next n s) (.error e)) :
    Ends (fun n => Prog.collect check next n s) (.error e) :=
  (LoopEnds.error h.bind_error).ends

/-- The first item that fails its check ends the loop over the items. -/
theorem Yields.collect_error {check : α → Except ε β} {front rest : List α} {a : α} {bs : List β}
    (h : Yields next s (front ++ a :: rest))
    (hfront : List.Forall₂ (fun a b => check a = .ok b) front bs) (ha : check a = .error e) :
    Ends (fun n => Prog.collect check next n s) (.error e) := by
  have hloop : ∀ buffer, LoopEnds (collectTurn check next) (buffer, s) (.error e) := by
    induction hfront generalizing s with
    | nil =>
        intro buffer
        cases h with
        | cons hsome _ =>
            refine .error (hsome.bind ?_)
            simp only [ha]
            exact Ends.const _
    | @cons a' b' front bs hb _ ih =>
        intro buffer
        cases h with
        | cons hsome hrest =>
            refine .again (hsome.bind ?_) (ih hrest (buffer ++ [b']))
            simp only [hb]
            exact Ends.const _
  exact (hloop []).ends

end

end Prog
