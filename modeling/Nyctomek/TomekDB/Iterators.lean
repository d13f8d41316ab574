/-
# `TomekDB.Iterators` — what the operators take from below

Every `next` asks the iterator below for tuples that no other iterator will see again.
Two results say what becomes of them.

    projection_iff      a tuple without one of the fields ends a projection: whether it
                        takes the whole stream
    shared_calls        limits and selections that share a scan, in any order of calls
-/
import Mathlib.Logic.Function.Basic
import Nyctomek.TomekDB.Basic

namespace Nyctomek.TomekDB

open Prog

/-! ## Projections -/

theorem project_isSome {fieldNames : List Bytes} {tuple : Tuple} :
    (project fieldNames tuple).isSome = true ↔
      ∃ name ∈ fieldNames, ∃ field ∈ tuple.fields, field.name = name := by
  have hpos : (project fieldNames tuple).isSome = true
      ↔ 0 < (projectedFields fieldNames tuple).length := by
    rw [project, Nat.pos_iff_ne_zero]
    split
    · rename_i hne
      exact iff_of_true rfl hne
    · rename_i hne
      exact iff_of_false Bool.false_ne_true hne
  rw [hpos, List.length_pos_iff_exists_mem]
  simp only [projectedFields, List.mem_flatMap, List.mem_filter, decide_eq_true_eq]
  constructor
  · rintro ⟨field, name, hname, hfield, heq⟩
    exact ⟨name, hname, field, hfield, heq⟩
  · rintro ⟨name, hname, field, hfield, heq⟩
    exact ⟨field, name, hname, hfield, heq⟩

/-- **Asked until `nullopt` comes**, a projection takes the whole stream and returns what all
of its tuples have of the fields, exactly if every tuple but the last has one of them. -/
theorem projection_iff {σ : Type} {child : Pull Error σ Tuple} {s : σ} {tuples : List Tuple}
    (h : Yields child s tuples) (fieldNames : List Bytes) :
    (∃ s', Ends (fun n => collect .ok (ProjectionIterator.next fieldNames (logNext child)) n ([], s))
      (.ok (tuples.filterMap (project fieldNames), (tuples, s')))) ↔
      ∀ tuple ∈ tuples.dropLast, ∃ name ∈ fieldNames, ∃ field ∈ tuple.fields, field.name = name := by
  obtain ⟨s', hrun⟩ := h.collect_mapNext (f := project fieldNames)
  have hall : upTo (project fieldNames) tuples = tuples ↔ ∀ tuple ∈ tuples.dropLast,
      ∃ name ∈ fieldNames, ∃ field ∈ tuple.fields, field.name = name :=
    upTo_eq_self.trans (forall₂_congr fun _ _ => project_isSome)
  rw [← hall]
  constructor
  · rintro ⟨s'', hwhole⟩
    have heq := Except.ok.inj (hrun.unique hwhole)
    exact (Prod.mk.inj (Prod.mk.inj heq).2).1
  · intro hself
    rw [hself] at hrun
    exact ⟨s', hrun⟩

/-- A tuple without the field is the last one. -/
theorem projection_iff_last : ∃ s', Ends (fun n => collect .ok
      (ProjectionIterator.next [[97]] (logNext listNext)) n ([], [⟨[⟨[97], .int 1⟩]⟩, ⟨[]⟩]))
    (.ok ([⟨[⟨[97], .int 1⟩]⟩], ([⟨[⟨[97], .int 1⟩]⟩, ⟨[]⟩], s'))) :=
  (projection_iff (yields_listNext _) [[97]]).mpr (by simp)

/-- A tuple without the field, and one with it behind. -/
theorem not_projected : ¬∃ s', Ends (fun n => collect .ok
      (ProjectionIterator.next [[97]] (logNext listNext)) n ([], [⟨[]⟩, ⟨[⟨[97], .int 1⟩]⟩]))
    (.ok ([⟨[⟨[97], .int 1⟩]⟩], ([⟨[]⟩, ⟨[⟨[97], .int 1⟩]⟩], s'))) := by
  rintro ⟨s', hwhole⟩
  obtain ⟨s'', hrun⟩ := (yields_listNext (ε := Error) _).collect_mapNext (f := project [[97]])
  have heq := Except.ok.inj (hwhole.unique hrun)
  exact absurd (Prod.mk.inj heq).1 (by decide)

/-! ## Operators that share a scan -/

/-- An object over the scan. -/
inductive Consumer where
  | limit (d_limit : Nat)
  | selection (criteria : SelectionCriteria)
  deriving DecidableEq, Repr

/-- What is left of the list, and the objects over the scan. -/
structure Shared (ι : Type) where
  scan : List Tuple
  consumers : ι → Consumer

/-- Whose `next` is called: that of the scan, or of an object over it. -/
inductive Caller (ι : Type) where
  | scan
  | consumer (i : ι)
  deriving DecidableEq, Repr

/-- A call: what it has asked the scan for, and what it has returned. -/
structure Event (ι : Type) where
  caller : Caller ι
  pulled : List Tuple
  returned : Option Tuple
  deriving DecidableEq, Repr

section
variable {ι : Type} [DecidableEq ι]

/-- A call of `next`. -/
def Shared.call (fuel : Nat) (s : Shared ι) (caller : Caller ι) : Exec Error (Event ι × Shared ι) :=
  match caller with
  | .scan => do
      let (returned, (pulled, scan)) ← logNext listNext fuel ([], s.scan)
      return (⟨caller, pulled, returned⟩, { s with scan })
  | .consumer i =>
      match s.consumers i with
      | .limit d_limit => do
          let (returned, (d_limit, (pulled, scan))) ←
            LimitIterator.next (logNext listNext) fuel (d_limit, ([], s.scan))
          return (⟨caller, pulled, returned⟩, ⟨scan, Function.update s.consumers i (.limit d_limit)⟩)
      | .selection criteria => do
          let (returned, (pulled, scan)) ←
            SelectionIterator.next criteria (logNext listNext) fuel ([], s.scan)
          return (⟨caller, pulled, returned⟩, { s with scan })

/-- Calls in some order. -/
def Shared.run (fuel : Nat) : List (Caller ι) → Shared ι → Exec Error (List (Event ι) × Shared ι)
  | [], s => pure ([], s)
  | caller :: callers, s => do
      let (event, s) ← s.call fuel caller
      let (events, s) ← Shared.run fuel callers s
      return (event :: events, s)

/-- A tuple that is pulled is returned, unless a selection rejects it. -/
def Shared.accepts (s : Shared ι) : Caller ι → Tuple → Bool
  | .scan, _ => true
  | .consumer i, tuple =>
      match s.consumers i with
      | .limit _ => true
      | .selection criteria => selectionMatches criteria tuple

/-- What has been pulled, and by whom. -/
def pulls (events : List (Event ι)) : List (Caller ι × Tuple) :=
  events.flatMap fun event => event.pulled.map (Prod.mk event.caller)

/-- How many tuples one of the callers has pulled. -/
def pulledBy (caller : Caller ι) (events : List (Event ι)) : Nat :=
  ((pulls events).filter (·.1 = caller)).length

/-- How many tuples an object may still pull. -/
def Shared.budget (s : Shared ι) (i : ι) : Option Nat :=
  match s.consumers i with
  | .limit d_limit => some d_limit
  | .selection _ => none

theorem ends_listNext (tuples : List Tuple) :
    Ends (fun n => logNext listNext n ([], tuples) : Nat → Exec Error _)
      (.ok (tuples.head?, (tuples.take 1, tuples.drop 1))) := by
  cases tuples with
  | nil => exact Ends.const _
  | cons tuple tuples => exact Ends.const _

/-- Nothing but the scan has changed. -/
theorem Shared.budget_scan (s : Shared ι) (scan : List Tuple) {caller : Caller ι}
    (hcaller : ∀ i, s.budget i ≠ none → caller ≠ .consumer i) (pulled : List Tuple) :
    ∀ i n, s.budget i = some n → ∃ n', ({ s with scan } : Shared ι).budget i = some n' ∧
      (if caller = .consumer i then pulled.length else 0) + n' ≤ n := by
  intro i n hn
  refine ⟨n, hn, ?_⟩
  rw [if_neg (hcaller i (by rw [hn]; exact Option.some_ne_none n)), Nat.zero_add]

/-- A limit counts the call. -/
theorem Shared.budget_limit {s : Shared ι} {i : ι} {d_limit d_limit' : Nat} {pulled : List Tuple}
    (hlimit : s.consumers i = .limit d_limit) (hle : pulled.length + d_limit' ≤ d_limit)
    (scan : List Tuple) :
    ∀ j n, s.budget j = some n → ∃ n',
      (⟨scan, Function.update s.consumers i (.limit d_limit')⟩ : Shared ι).budget j = some n' ∧
      (if (Caller.consumer i : Caller ι) = .consumer j then pulled.length else 0) + n' ≤ n := by
  intro j n hn
  by_cases hij : i = j
  · subst hij
    rw [Shared.budget, hlimit] at hn
    refine ⟨d_limit', by simp [Shared.budget], ?_⟩
    rw [if_pos rfl, ← Option.some.inj hn]
    exact hle
  · refine ⟨n, ?_, ?_⟩
    · rw [← hn]
      simp only [Shared.budget, Function.update_of_ne (Ne.symm hij)]
    · rw [if_neg (fun h => hij (Caller.consumer.inj h)), Nat.zero_add]

theorem Shared.accepts_limit {s : Shared ι} {i : ι} {d_limit : Nat}
    (hlimit : s.consumers i = .limit d_limit) (d_limit' : Nat) (scan : List Tuple) :
    (⟨scan, Function.update s.consumers i (.limit d_limit')⟩ : Shared ι).accepts = s.accepts := by
  funext caller tuple
  cases caller with
  | scan => rfl
  | consumer j =>
      by_cases hij : j = i
      · subst hij
        simp [Shared.accepts, hlimit]
      · simp [Shared.accepts, Function.update_of_ne hij]

/-- **One call.** -/
theorem Shared.call_spec (s : Shared ι) (caller : Caller ι) : ∃ event s' k,
    Ends (fun n => s.call n caller) (.ok (event, s')) ∧ event.caller = caller ∧
      event.pulled = s.scan.take k ∧ s'.scan = s.scan.drop k ∧
      event.returned.toList = event.pulled.filter (s.accepts caller) ∧ s'.accepts = s.accepts ∧
      ∀ i n, s.budget i = some n → ∃ n', s'.budget i = some n' ∧
        (if caller = .consumer i then event.pulled.length else 0) + n' ≤ n := by
  cases caller with
  | scan =>
      refine ⟨⟨.scan, s.scan.take 1, s.scan.head?⟩, { s with scan := s.scan.drop 1 }, 1,
        (ends_listNext s.scan).bind (Ends.const _), rfl, rfl, rfl, ?_, rfl, ?_⟩
      · rw [List.take_one]
        exact (List.filter_eq_self.mpr fun _ _ => rfl).symm
      · refine s.budget_scan _ ?_ _
        intro i _ h
        cases h
  | consumer i =>
      cases hconsumer : s.consumers i with
      | limit d_limit =>
          have haccepts : ∀ tuple, s.accepts (.consumer i) tuple = true := by
            intro tuple
            simp [Shared.accepts, hconsumer]
          cases d_limit with
          | zero =>
              refine ⟨⟨.consumer i, [], none⟩, ⟨s.scan, Function.update s.consumers i (.limit 0)⟩, 0,
                ?_, rfl, rfl, rfl, rfl, Shared.accepts_limit hconsumer 0 _,
                Shared.budget_limit hconsumer (Nat.le_refl 0) _⟩
              simp only [Shared.call, hconsumer]
              exact Ends.const _
          | succ d_limit =>
              refine ⟨⟨.consumer i, s.scan.take 1, s.scan.head?⟩,
                ⟨s.scan.drop 1, Function.update s.consumers i (.limit d_limit)⟩, 1, ?_, rfl, rfl, rfl,
                ?_, Shared.accepts_limit hconsumer d_limit _, Shared.budget_limit hconsumer ?_ _⟩
              · have hlimit : Ends (fun n => LimitIterator.next (logNext listNext) n
                      (d_limit + 1, ([], s.scan)))
                    (.ok (s.scan.head?, (d_limit, (s.scan.take 1, s.scan.drop 1)))) :=
                  (ends_listNext s.scan).bind (Ends.const _)
                simp only [Shared.call, hconsumer]
                exact hlimit.bind (Ends.const _)
              · rw [List.take_one]
                exact (List.filter_eq_self.mpr fun tuple _ => haccepts tuple).symm
              · rw [List.length_take]
                omega
      | selection criteria =>
          obtain ⟨k, returned, hrun, hreturned⟩ :=
            filterNext_logNext (ε := Error) (selectionMatches criteria) [] s.scan
          refine ⟨⟨.consumer i, s.scan.take k, returned⟩, { s with scan := s.scan.drop k }, k, ?_, rfl,
            rfl, rfl, ?_, rfl, s.budget_scan _ ?_ _⟩
          · simp only [Shared.call, hconsumer]
            exact Ends.bind hrun (Ends.const _)
          · rw [hreturned]
            refine List.filter_congr ?_
            intro tuple _
            simp [Shared.accepts, hconsumer]
          · rintro j hbudget heq
            obtain rfl := Caller.consumer.inj heq
            exact hbudget (by rw [Shared.budget, hconsumer])

omit [DecidableEq ι] in
theorem pulls_cons (event : Event ι) (events : List (Event ι)) :
    pulls (event :: events) = event.pulled.map (Prod.mk event.caller) ++ pulls events :=
  List.flatMap_cons

omit [DecidableEq ι] in
/-- Of the tuples of one caller those with a property. -/
theorem map_filter_pulled (caller : Caller ι) (pulled : List Tuple) (p : Caller ι → Tuple → Bool) :
    ((pulled.map (Prod.mk caller)).filter fun x => p x.1 x.2).map Prod.snd
      = pulled.filter (p caller) := by
  rw [List.filter_map, List.map_map]
  exact List.map_id _

theorem pulledBy_cons (caller : Caller ι) (event : Event ι) (events : List (Event ι)) :
    pulledBy caller (event :: events)
      = (if event.caller = caller then event.pulled.length else 0) + pulledBy caller events := by
  rw [pulledBy, pulls_cons, List.filter_append, List.length_append, ← pulledBy]
  congr 1
  split
  · rename_i heq
    rw [List.filter_eq_self.mpr (by simp [heq]), List.length_map]
  · rename_i hne
    rw [List.filter_eq_nil_iff.mpr (by simp [hne])]
    rfl

/-- **Any order of calls.**  What is pulled is a first part of the list, in its order; of it
everything is returned that is not rejected by the selection that has pulled it; and a limit
pulls no more tuples than it allows. -/
theorem shared_calls (s : Shared ι) (callers : List (Caller ι)) : ∃ events s' k,
    Ends (fun n => Shared.run n callers s) (.ok (events, s')) ∧ events.map Event.caller = callers ∧
      (pulls events).map Prod.snd = s.scan.take k ∧ s'.scan = s.scan.drop k ∧
      events.filterMap Event.returned
        = ((pulls events).filter fun x => s.accepts x.1 x.2).map Prod.snd ∧
      ∀ i d_limit, s.consumers i = .limit d_limit → pulledBy (.consumer i) events ≤ d_limit := by
  have hrun : ∃ events s' k,
      Ends (fun n => Shared.run n callers s) (.ok (events, s')) ∧ events.map Event.caller = callers ∧
        (pulls events).map Prod.snd = s.scan.take k ∧ s'.scan = s.scan.drop k ∧
        events.filterMap Event.returned
          = ((pulls events).filter fun x => s.accepts x.1 x.2).map Prod.snd ∧
        ∀ i n, s.budget i = some n → pulledBy (.consumer i) events ≤ n := by
    induction callers generalizing s with
    | nil => exact ⟨[], s, 0, Ends.const _, rfl, rfl, rfl, rfl, fun _ _ _ => Nat.zero_le _⟩
    | cons caller callers ih =>
        obtain ⟨event, s₁, k₁, hcall, hcaller, hpulled, hscan, hreturned, haccepts, hbudget⟩ :=
          s.call_spec caller
        obtain ⟨events, s', k, hrest, hcallers, hpulls, hscan', hreturneds, hbudgets⟩ := ih s₁
        refine ⟨event :: events, s', k₁ + k, hcall.bind (hrest.bind (Ends.const _)), ?_, ?_, ?_, ?_,
          ?_⟩
        · rw [List.map_cons, hcaller, hcallers]
        · rw [pulls_cons, List.map_append, hpulls, hscan, List.map_map, List.take_add, ← hpulled]
          congr 1
          exact List.map_id _
        · rw [hscan', hscan, List.drop_drop]
        · have hfirst : (event :: events).filterMap Event.returned
              = event.returned.toList ++ events.filterMap Event.returned := by
            cases hnext : event.returned with
            | none => rw [List.filterMap_cons_none hnext]; rfl
            | some tuple => rw [List.filterMap_cons_some hnext]; rfl
          rw [hfirst, hreturned, hreturneds, haccepts, pulls_cons, List.filter_append, List.map_append,
            map_filter_pulled, hcaller]
        · intro i n hn
          obtain ⟨n', hn', hle⟩ := hbudget i n hn
          have hrestLe := hbudgets i n' hn'
          rw [pulledBy_cons, hcaller]
          omega
  obtain ⟨events, s', k, hends, hcallers, hpulls, hscan, hreturned, hbudget⟩ := hrun
  refine ⟨events, s', k, hends, hcallers, hpulls, hscan, hreturned, ?_⟩
  intro i d_limit hlimit
  exact hbudget i d_limit (by rw [Shared.budget, hlimit])

end

end Nyctomek.TomekDB
