/-
# `TomekDB.FailedSort` — a sort after it has thrown

`SortIterator::next` throws in the middle of its loop, with a part of the tuples in
`d_tuples`; that this is empty is what tells a later call that there has been no sort.
So a call is followed here with the object it leaves behind, whatever it does
(`SortObject.next`); otherwise it is `SortIterator.next` (`sortIterator_next_eq`).

    d_tuples      d_currentRecord      the next call
    empty         any                  fills the buffer
    not empty     set                  the next tuple
    not empty     not set              undefined

`failsCleanly_iff` says for which streams no call after the first `throw` is undefined.
-/
import Nyctomek.TomekDB.Basic

namespace Nyctomek.TomekDB

open Prog

/-! ## Calls and the objects behind them -/

/-- What a call does. -/
inductive Outcome where
  | returned (tuple : Option Tuple)
  | thrown (error : Error)
  /-- An iterator is read that has never been set. -/
  | undefined
  deriving DecidableEq, Repr

/-- A `SortIterator`; its `d_currentRecord` may not have been set yet. -/
structure SortObject (sortColumnName : Bytes) (σ : Type) where
  d_tuples : List (Record sortColumnName)
  d_currentRecord : Option Nat
  child : σ

section
variable {σ : Type} (std : StdSort) (sortColumnName : Bytes) (sortOrder : SortOrder)
  (child : Pull Error σ Tuple)

/-- A turn of the loop that fills the buffer. -/
def fillTurn (fuel : Nat) (s : List (Record sortColumnName) × σ) :
    Exec Error (Turn (List (Record sortColumnName) × σ)
      (Option Error × (List (Record sortColumnName) × σ))) := do
  match ← child fuel s.2 with
  | (some tuple, rest) =>
      match record sortColumnName tuple with
      | .ok r => return .again (s.1 ++ [r], rest)
      | .error e => return .stop (some e, (s.1, rest))
  | (none, rest) => return .stop (none, (s.1, rest))

variable {sortColumnName}

/-- `*d_currentRecord++`, before the end. -/
def SortObject.current (s : SortObject sortColumnName σ) : Outcome × SortObject sortColumnName σ :=
  match s.d_currentRecord with
  | none => (.undefined, s)
  | some i =>
      match s.d_tuples[i]? with
      | some r => (.returned (some r.tuple), { s with d_currentRecord := some (i + 1) })
      | none => (.returned none, s)

def SortObject.next (fuel : Nat) (s : SortObject sortColumnName σ) :
    Exec Error (Outcome × SortObject sortColumnName σ) :=
  if s.d_tuples.length = 0 then do
    let (thrown, (d_tuples, rest)) ← loopOf (fillTurn sortColumnName child) fuel fuel ([], s.child)
    match thrown with
    | some e => return (.thrown e, { s with d_tuples, child := rest })
    | none =>
        if d_tuples.length = 0 then return (.returned none, { s with d_tuples, child := rest })
        return SortObject.current ⟨std.sort (less sortOrder) d_tuples, some 0, rest⟩
  else return s.current

/-- Calls one after the other, each with the object that it leaves behind. -/
def SortObject.calls (fuel : Nat) : Nat → SortObject sortColumnName σ →
    Exec Error (List (Outcome × SortObject sortColumnName σ))
  | 0, _ => pure []
  | n + 1, s => do
      let call ← SortObject.next std sortOrder child fuel s
      let calls ← SortObject.calls fuel n call.2
      return call :: calls

end

variable {σ : Type} {std : StdSort} {sortColumnName : Bytes} {sortOrder : SortOrder}
  {child : Pull Error σ Tuple}

/-! ## The same sort -/

/-- What `SortIterator.next` has in its state. -/
def SortObject.state (s : SortObject sortColumnName σ) : SortState sortColumnName σ :=
  ⟨s.d_tuples, s.d_currentRecord.getD 0, s.child⟩

/-- What is left of a call if nothing is known of the object after a `throw`. -/
def Outcome.result (call : Outcome × SortObject sortColumnName σ) :
    Exec Error (Option Tuple × SortState sortColumnName σ) :=
  match call with
  | (.returned tuple, s) => pure (tuple, s.state)
  | (.thrown e, _) => throw e
  | (.undefined, s) => pure (none, s.state)

/-- What is left of the loop. -/
def fillResult (r : Option Error × (List (Record sortColumnName) × σ)) :
    Exec Error (List (Record sortColumnName) × σ) :=
  match r.1 with
  | some e => throw e
  | none => pure r.2

/-- The loops are the same up to the buffer that is left at a `throw`. -/
theorem loopOf_fillTurn (fuel turns : Nat) (s : List (Record sortColumnName) × σ) :
    loopOf (collectTurn (record sortColumnName) child) fuel turns s
      = loopOf (fillTurn sortColumnName child) fuel turns s >>= fillResult := by
  induction turns generalizing s with
  | zero => rfl
  | succ turns ih =>
      rw [loopOf, loopOf]
      cases hchild : child fuel s.2 with
      | none =>
          simp only [collectTurn, fillTurn, show child fuel s.2 = noFuel from hchild, noFuel_bind]
      | some r =>
          cases r with
          | error e =>
              simp only [collectTurn, fillTurn, show child fuel s.2 = done (.error e) from hchild,
                done_error_bind]
          | ok r =>
              obtain ⟨item, rest⟩ := r
              simp only [collectTurn, fillTurn,
                show child fuel s.2 = done (.ok (item, rest)) from hchild, done_ok_bind]
              cases item with
              | none => rfl
              | some tuple =>
                  cases hrecord : record sortColumnName tuple with
                  | error e =>
                      simp only [hrecord]
                      rfl
                  | ok r =>
                      simp only [hrecord]
                      exact ih (s.1 ++ [r], rest)

theorem result_current {s : SortObject sortColumnName σ} (h : s.d_currentRecord.isSome = true) :
    Outcome.result s.current = pure s.state.current := by
  obtain ⟨d_tuples, d_currentRecord, child⟩ := s
  cases d_currentRecord with
  | none => cases h
  | some i =>
      simp only [SortObject.current, SortState.current, SortObject.state, Option.getD_some]
      cases d_tuples[i]? with
      | none => rfl
      | some r => rfl

/-- **The same sort**, as long as the object has not been left with a part of the tuples. -/
theorem sortIterator_next_eq (fuel : Nat) {s : SortObject sortColumnName σ}
    (h : s.d_tuples.length = 0 ∨ s.d_currentRecord.isSome = true) :
    SortIterator.next std sortColumnName sortOrder child fuel s.state
      = SortObject.next std sortOrder child fuel s >>= Outcome.result := by
  rw [SortIterator.next, SortObject.next]
  by_cases hempty : s.d_tuples.length = 0
  · rw [if_pos (show s.state.d_tuples.length = 0 from hempty), if_pos hempty, collect,
      loopOf_fillTurn]
    simp only [bind_assoc]
    refine bind_congr ?_
    rintro ⟨thrown, d_tuples, rest⟩
    cases thrown with
    | some e => rfl
    | none =>
        show ite (d_tuples.length = 0) _ _ = ite (d_tuples.length = 0) _ _ >>= Outcome.result
        split
        · rfl
        · exact (result_current
            (s := ⟨std.sort (less sortOrder) d_tuples, some 0, rest⟩) rfl).symm
  · rw [if_neg (show ¬s.state.d_tuples.length = 0 from hempty), if_neg hempty]
    exact (result_current (h.resolve_left hempty)).symm

/-! ## Filling the buffer -/

def HasColumn (sortColumnName : Bytes) (tuple : Tuple) : Prop :=
  ∃ field ∈ tuple.fields, field.name = sortColumnName

theorem sortKey_isSome {tuple : Tuple} :
    (sortKey sortColumnName tuple).isSome = true ↔ HasColumn sortColumnName tuple := by
  have hfold : ∀ (fields : List Field) (key : Option Data),
      (fields.foldl (fun key field => if field.name = sortColumnName then some field.data else key)
        key).isSome = true ↔ key.isSome = true ∨ ∃ field ∈ fields, field.name = sortColumnName := by
    intro fields
    induction fields with
    | nil => simp
    | cons field fields ih =>
        intro key
        rw [List.foldl_cons, ih]
        by_cases hname : field.name = sortColumnName
        · simp [hname]
        · simp [hname]
  rw [sortKey, hfold]
  simp [HasColumn]

theorem exists_record {tuple : Tuple} (h : HasColumn sortColumnName tuple) :
    ∃ r, record sortColumnName tuple = .ok r := by
  rw [record]
  split
  · exact ⟨_, rfl⟩
  · rename_i hnone
    have hsome := sortKey_isSome.mpr h
    rw [hnone] at hsome
    cases hsome

theorem record_error {tuple : Tuple} (h : ¬HasColumn sortColumnName tuple) :
    record sortColumnName tuple = .error (.sortKeyMissing sortColumnName tuple) := by
  rw [record]
  split
  · rename_i key hkey
    exact absurd (sortKey_isSome.mp (by rw [hkey]; rfl)) h
  · rfl

variable {s : σ} {tuples : List Tuple}

/-- The first tuple without the column leaves those before it in the buffer. -/
theorem fill_throws {front rest : List Tuple} {bad : Tuple}
    (h : Streams child s (front ++ bad :: rest))
    (hfront : ∀ tuple ∈ front, HasColumn sortColumnName tuple)
    (hbad : ¬HasColumn sortColumnName bad) (buffer : List (Record sortColumnName)) :
    ∃ records e s', LoopEnds (fillTurn sortColumnName child) (buffer, s)
        (.ok (some e, (buffer ++ records, s'))) ∧ records.length = front.length ∧
      Streams child s' rest := by
  induction front generalizing s buffer with
  | nil =>
      cases h with
      | @cons _ s' _ _ hsome hrest =>
          refine ⟨[], .sortKeyMissing sortColumnName bad, s', .stop (hsome.bind ?_), rfl, hrest⟩
          simp only [record_error hbad, List.append_nil]
          exact Ends.const _
  | cons tuple front ih =>
      obtain ⟨htuple, hfront⟩ := List.forall_mem_cons.mp hfront
      obtain ⟨r, hr⟩ := exists_record htuple
      cases h with
      | @cons _ s' _ _ hsome hrest =>
          obtain ⟨records, e, s'', hloop, hlen, hstream⟩ := ih hrest hfront (buffer ++ [r])
          rw [List.append_assoc] at hloop
          refine ⟨r :: records, e, s'', .again (hsome.bind ?_) hloop, by simp [hlen], hstream⟩
          simp only [hr]
          exact Ends.const _

/-- Without such a tuple all of them are in the buffer. -/
theorem fill_ends (h : Streams child s tuples)
    (htuples : ∀ tuple ∈ tuples, HasColumn sortColumnName tuple)
    (buffer : List (Record sortColumnName)) :
    ∃ records s', LoopEnds (fillTurn sortColumnName child) (buffer, s)
        (.ok (none, (buffer ++ records, s'))) ∧
      List.Forall₂ (fun tuple r => record sortColumnName tuple = .ok r) tuples records ∧
      Exhausted child s' := by
  induction h generalizing buffer with
  | nil hend =>
      obtain ⟨s', hnone, hexhausted⟩ := hend.ends
      refine ⟨[], s', .stop (hnone.bind ?_), .nil, hexhausted⟩
      rw [List.append_nil]
      exact Ends.const _
  | cons hsome _ ih =>
      obtain ⟨htuple, htuples⟩ := List.forall_mem_cons.mp htuples
      obtain ⟨r, hr⟩ := exists_record htuple
      obtain ⟨records, s', hloop, hrecords, hexhausted⟩ := ih htuples (buffer ++ [r])
      rw [List.append_assoc] at hloop
      refine ⟨r :: records, s', .again (hsome.bind ?_) hloop, .cons hr hrecords, hexhausted⟩
      simp only [hr]
      exact Ends.const _

/-! ## Calls -/

/-- The call for a buffer that is empty. -/
theorem ends_next_thrown {d_currentRecord : Option Nat} {s' : σ} {e : Error}
    {d_tuples : List (Record sortColumnName)}
    (h : LoopEnds (fillTurn sortColumnName child) ([], s) (.ok (some e, (d_tuples, s')))) :
    Ends (fun n => SortObject.next std sortOrder child n ⟨[], d_currentRecord, s⟩)
      (.ok (.thrown e, ⟨d_tuples, d_currentRecord, s'⟩)) := by
  simp only [SortObject.next, List.length_nil, if_true]
  exact h.ends.bind (Ends.const _)

theorem ends_next_filled {d_currentRecord : Option Nat} {s' : σ}
    {d_tuples : List (Record sortColumnName)}
    (h : LoopEnds (fillTurn sortColumnName child) ([], s) (.ok (none, (d_tuples, s')))) :
    Ends (fun n => SortObject.next std sortOrder child n ⟨[], d_currentRecord, s⟩)
      (.ok (if d_tuples.length = 0 then (.returned none, ⟨d_tuples, d_currentRecord, s'⟩)
        else SortObject.current ⟨std.sort (less sortOrder) d_tuples, some 0, s'⟩)) := by
  simp only [SortObject.next, List.length_nil, if_true]
  refine h.ends.bind ?_
  simp only
  split
  · exact Ends.const _
  · exact Ends.const _

theorem ends_next_current {s : SortObject sortColumnName σ} (h : s.d_tuples.length ≠ 0) :
    Ends (fun n => SortObject.next std sortOrder child n s) (.ok s.current) := by
  refine Ends.congr (fun n => ?_) (Ends.const _)
  rw [SortObject.next, if_neg h]
  rfl

/-- The buffer holds all that the sort has to return: what the child had left at some point,
sorted. -/
def Complete (std : StdSort) (sortOrder : SortOrder) (tuples : List Tuple)
    (d_tuples : List (Record sortColumnName)) : Prop :=
  ∃ k records, List.Forall₂ (fun tuple r => record sortColumnName tuple = .ok r) (tuples.drop k)
    records ∧ d_tuples = std.sort (less sortOrder) records

/-- A call is not undefined, and returns a tuple of a complete buffer only. -/
def Clean (std : StdSort) (sortOrder : SortOrder) (tuples : List Tuple)
    (call : Outcome × SortObject sortColumnName σ) : Prop :=
  match call.1 with
  | .returned (some _) => Complete std sortOrder tuples call.2.d_tuples
  | .returned none => True
  | .thrown _ => True
  | .undefined => False

/-- The first call throws, and however many follow, they are clean. -/
def FailsCleanly (std : StdSort) (sortColumnName : Bytes) (sortOrder : SortOrder)
    (child : Pull Error σ Tuple) (s : σ) (tuples : List Tuple) : Prop :=
  ∃ e s', Ends (fun n => SortObject.next std sortOrder child n ⟨[], none, s⟩) (.ok (.thrown e, s')) ∧
    ∀ k, ∃ calls : List (Outcome × SortObject sortColumnName σ),
      Ends (fun n => SortObject.calls std sortOrder child n k s') (.ok calls) ∧
      calls.length = k ∧ ∀ call ∈ calls, Clean std sortOrder tuples call

/-- No tuple without the column stands behind one with it. -/
def MissingFirst (sortColumnName : Bytes) (tuples : List Tuple) : Prop :=
  tuples.Pairwise fun a b => HasColumn sortColumnName a → HasColumn sortColumnName b

/-! ## Where no tuple without the column stands behind one with it -/

/-- The object between two calls. -/
inductive Sound (std : StdSort) (sortOrder : SortOrder) (child : Pull Error σ Tuple)
    (tuples : List Tuple) : SortObject sortColumnName σ → Prop
  | empty {d_currentRecord : Option Nat} {s : σ} (k : Nat) : Streams child s (tuples.drop k) →
      MissingFirst sortColumnName (tuples.drop k) →
      Sound std sortOrder child tuples ⟨[], d_currentRecord, s⟩
  | sorted {s : SortObject sortColumnName σ} {i : Nat} : s.d_tuples.length ≠ 0 →
      s.d_currentRecord = some i → Complete std sortOrder tuples s.d_tuples →
      Sound std sortOrder child tuples s

theorem clean_current {s : SortObject sortColumnName σ} {i : Nat} (hset : s.d_currentRecord = some i)
    (hcomplete : Complete std sortOrder tuples s.d_tuples) :
    Clean std sortOrder tuples s.current ∧ s.current.2.d_tuples = s.d_tuples ∧
      s.current.2.child = s.child ∧ ∃ j, s.current.2.d_currentRecord = some j := by
  obtain ⟨d_tuples, d_currentRecord, child⟩ := s
  cases hset
  simp only [SortObject.current]
  cases d_tuples[i]? with
  | none => exact ⟨trivial, rfl, rfl, i, rfl⟩
  | some r => exact ⟨hcomplete, rfl, rfl, i + 1, rfl⟩

theorem drop_eq_cons {k : Nat} {tuple : Tuple} {rest : List Tuple}
    (h : tuples.drop k = tuple :: rest) : tuples.drop (k + 1) = rest := by
  rw [← List.drop_drop, h]
  rfl

/-- **One call** from a sound object is clean, and leaves a sound one behind. -/
theorem Sound.next {s : SortObject sortColumnName σ} (h : Sound std sortOrder child tuples s) :
    ∃ call, Ends (fun n => SortObject.next std sortOrder child n s) (.ok call) ∧
      Clean std sortOrder tuples call ∧ Sound std sortOrder child tuples call.2 := by
  cases h with
  | @sorted _ i hne hset hcomplete =>
      obtain ⟨hclean, htuples, -, j, hset'⟩ := clean_current hset hcomplete
      refine ⟨s.current, ends_next_current hne, hclean, .sorted ?_ hset' ?_⟩
      · rwa [htuples]
      · rwa [htuples]
  | @empty d_currentRecord s k hstream hmissing =>
      by_cases hall : ∀ tuple ∈ tuples.drop k, HasColumn sortColumnName tuple
      · -- the rest of the tuples is sorted
        obtain ⟨records, s', hloop, hrecords, hexhausted⟩ := fill_ends hstream hall []
        rw [List.nil_append] at hloop
        have hlast : ∀ d_currentRecord : Option Nat, Sound std sortOrder child tuples
            (⟨[], d_currentRecord, s'⟩ : SortObject sortColumnName σ) := by
          intro d_currentRecord
          refine .empty tuples.length ?_ ?_
          · rw [List.drop_length]
            exact .nil hexhausted
          · rw [List.drop_length]
            exact List.Pairwise.nil
        refine ⟨_, ends_next_filled hloop, ?_⟩
        split
        · rename_i hzero
          rw [List.eq_nil_of_length_eq_zero hzero]
          exact ⟨trivial, hlast d_currentRecord⟩
        · have hcomplete : Complete std sortOrder tuples (std.sort (less sortOrder) records) :=
            ⟨k, records, hrecords, rfl⟩
          generalize std.sort (less sortOrder) records = d_tuples at *
          cases d_tuples with
          | nil => exact ⟨trivial, hlast (some 0)⟩
          | cons r d_tuples =>
              exact ⟨hcomplete, .sorted (Nat.succ_ne_zero _) rfl hcomplete⟩
      · -- the next tuple is without the column
        cases hdrop : tuples.drop k with
        | nil => exact absurd (by rw [hdrop]; simp) hall
        | cons tuple rest =>
            rw [hdrop] at hstream hmissing hall
            obtain ⟨hfirst, hrest⟩ := List.pairwise_cons.mp hmissing
            have htuple : ¬HasColumn sortColumnName tuple := by
              intro hhas
              refine hall (List.forall_mem_cons.mpr ⟨hhas, ?_⟩)
              intro other hother
              exact hfirst other hother hhas
            obtain ⟨records, e, s', hloop, hlen, hstream'⟩ :=
              fill_throws hstream (List.forall_mem_nil _) htuple []
            rw [List.eq_nil_of_length_eq_zero hlen] at hloop
            refine ⟨_, ends_next_thrown hloop, trivial, .empty (k + 1) ?_ ?_⟩
            · rwa [drop_eq_cons hdrop]
            · rwa [drop_eq_cons hdrop]

/-- **Any number of calls.** -/
theorem Sound.calls {s : SortObject sortColumnName σ} (h : Sound std sortOrder child tuples s)
    (k : Nat) : ∃ calls : List (Outcome × SortObject sortColumnName σ),
      Ends (fun n => SortObject.calls std sortOrder child n k s) (.ok calls) ∧
      calls.length = k ∧ ∀ call ∈ calls, Clean std sortOrder tuples call := by
  induction k generalizing s with
  | zero => exact ⟨[], Ends.const _, rfl, fun _ h => nomatch h⟩
  | succ k ih =>
      obtain ⟨call, hcall, hclean, hsound⟩ := h.next
      obtain ⟨calls, hcalls, hlen, hcleans⟩ := ih hsound
      exact ⟨call :: calls, hcall.bind (hcalls.bind (Ends.const _)), by simp [hlen],
        List.forall_mem_cons.mpr ⟨hclean, hcleans⟩⟩

/-! ## Where one does -/

/-- The first tuple without the column. -/
theorem exists_first_missing (h : ∃ tuple ∈ tuples, ¬HasColumn sortColumnName tuple) :
    ∃ front bad rest, tuples = front ++ bad :: rest ∧
      (∀ tuple ∈ front, HasColumn sortColumnName tuple) ∧ ¬HasColumn sortColumnName bad := by
  induction tuples with
  | nil =>
      obtain ⟨_, hmem, -⟩ := h
      cases hmem
  | cons tuple tuples ih =>
      by_cases htuple : HasColumn sortColumnName tuple
      · obtain ⟨bad, hmem, hbad⟩ := h
        rcases List.mem_cons.mp hmem with rfl | hmem
        · exact absurd htuple hbad
        · obtain ⟨front, bad, rest, rfl, hfront, hbad⟩ := ih ⟨bad, hmem, hbad⟩
          exact ⟨tuple :: front, bad, rest, rfl, List.forall_mem_cons.mpr ⟨htuple, hfront⟩, hbad⟩
      · exact ⟨[], tuple, tuples, rfl, List.forall_mem_nil _, htuple⟩

/-- A part of the tuples is left in the buffer, and the call after that is undefined. -/
theorem exists_undefined (h : Streams child s tuples)
    (hmissing : ¬MissingFirst sortColumnName tuples) : ∃ k, ∃ calls : List (Outcome × SortObject sortColumnName σ),
      Ends (fun n => SortObject.calls std sortOrder child n k ⟨[], none, s⟩) (.ok calls) ∧
      ∃ call ∈ calls, call.1 = .undefined := by
  induction h with
  | nil _ => exact absurd List.Pairwise.nil hmissing
  | @cons s s' tuple tuples hsome hrest ih =>
      by_cases htuple : HasColumn sortColumnName tuple
      · have hlater : ∃ other ∈ tuples, ¬HasColumn sortColumnName other := by
          by_contra hnone
          simp only [not_exists, not_and, not_not] at hnone
          exact hmissing (List.pairwise_of_forall_mem_list fun a _ b hb _ => by
            rcases List.mem_cons.mp hb with rfl | hb
            · exact htuple
            · exact hnone b hb)
        -- a part of the tuples is left behind by the first call
        obtain ⟨front, bad, rest, rfl, hfront, hbad⟩ := exists_first_missing hlater
        have hstream : Streams child s ((tuple :: front) ++ bad :: rest) := .cons hsome hrest
        obtain ⟨records, e, s'', hloop, hlen, -⟩ :=
          fill_throws hstream (List.forall_mem_cons.mpr ⟨htuple, hfront⟩) hbad []
        rw [List.nil_append] at hloop
        have hthrown : Ends (fun n => SortObject.next std sortOrder child n ⟨[], none, s⟩)
            (.ok (.thrown e, ⟨records, none, s''⟩)) := ends_next_thrown hloop
        have hundefined : Ends (fun n => SortObject.next std sortOrder child n ⟨records, none, s''⟩)
            (.ok (.undefined, ⟨records, none, s''⟩)) :=
          ends_next_current (by rw [hlen]; exact Nat.succ_ne_zero _)
        exact ⟨2, _, hthrown.bind ((hundefined.bind ((Ends.const _).bind (Ends.const _))).bind
          (Ends.const _)), _, List.mem_cons_of_mem _ List.mem_cons_self, rfl⟩
      · -- the buffer is still empty after the first call
        have hlater : ¬MissingFirst sortColumnName tuples := by
          intro hpairwise
          exact hmissing (List.pairwise_cons.mpr ⟨fun _ _ hhas => absurd hhas htuple, hpairwise⟩)
        obtain ⟨k, calls, hcalls, call, hmem, hundefined⟩ := ih hlater
        have hthrown : Ends (fun n => SortObject.next std sortOrder child n ⟨[], none, s⟩)
            (.ok (.thrown (.sortKeyMissing sortColumnName tuple),
              (⟨[], none, s'⟩ : SortObject sortColumnName σ))) := by
          refine ends_next_thrown (.stop (hsome.bind ?_))
          simp only [record_error htuple]
          exact Ends.const _
        exact ⟨k + 1, _, hthrown.bind (hcalls.bind (Ends.const _)), call,
          List.mem_cons_of_mem _ hmem, hundefined⟩

/-! ## When a failed sort fails cleanly -/

theorem FailsCleanly.calls (h : FailsCleanly std sortColumnName sortOrder child s tuples) (k : Nat) :
    ∃ calls : List (Outcome × SortObject sortColumnName σ),
      Ends (fun n => SortObject.calls std sortOrder child n k ⟨[], none, s⟩) (.ok calls) ∧
      ∀ call ∈ calls, Clean std sortOrder tuples call := by
  obtain ⟨e, s', hthrown, hlater⟩ := h
  cases k with
  | zero => exact ⟨[], Ends.const _, List.forall_mem_nil _⟩
  | succ k =>
      obtain ⟨calls, hcalls, -, hclean⟩ := hlater k
      exact ⟨(.thrown e, s') :: calls, hthrown.bind (hcalls.bind (Ends.const _)),
        List.forall_mem_cons.mpr ⟨trivial, hclean⟩⟩

theorem not_failsCleanly (h : Streams child s tuples)
    (hmissing : ¬MissingFirst sortColumnName tuples) :
    ¬FailsCleanly std sortColumnName sortOrder child s tuples := by
  intro hclean
  obtain ⟨k, calls, hcalls, call, hmem, hundefined⟩ := exists_undefined h hmissing
  obtain ⟨calls', hcalls', hcleans⟩ := hclean.calls k
  obtain rfl := Except.ok.inj (hcalls.unique hcalls')
  have hcall := hcleans call hmem
  rw [Clean, hundefined] at hcall
  exact hcall

/-- **A sort that throws fails cleanly** if and only if no tuple without the sort column stands
behind one that has it. -/
theorem failsCleanly_iff (h : Streams child s tuples)
    (hbad : ∃ tuple ∈ tuples, ¬HasColumn sortColumnName tuple) :
    FailsCleanly std sortColumnName sortOrder child s tuples
      ↔ MissingFirst sortColumnName tuples := by
  constructor
  · intro hclean
    by_contra hmissing
    exact not_failsCleanly h hmissing hclean
  · intro hmissing
    -- the first tuple of all is without the column, and nothing has been buffered before it
    obtain ⟨front, bad, rest, rfl, hfront, hmiss⟩ := exists_first_missing hbad
    cases front with
    | cons tuple front =>
        have hhas := hfront tuple List.mem_cons_self
        exact absurd ((List.pairwise_cons.mp hmissing).1 bad (by simp) hhas) hmiss
    | nil =>
        obtain ⟨records, e, s', hloop, hlen, hstream⟩ := fill_throws h hfront hmiss []
        rw [List.eq_nil_of_length_eq_zero hlen] at hloop
        have hsound : Sound std sortOrder child ([] ++ bad :: rest)
            (⟨[], none, s'⟩ : SortObject sortColumnName σ) :=
          .empty 1 hstream (List.pairwise_cons.mp hmissing).2
        exact ⟨e, _, ends_next_thrown hloop, hsound.calls⟩

theorem failsCleanly_iff_first :
    FailsCleanly insertionSort [97] .ASCENDING listNext [⟨[]⟩, ⟨[⟨[97], .int 1⟩]⟩]
        [⟨[]⟩, ⟨[⟨[97], .int 1⟩]⟩]
      ↔ MissingFirst [97] [⟨[]⟩, ⟨[⟨[97], .int 1⟩]⟩] := by
  refine failsCleanly_iff (streams_listNext _) ⟨⟨[]⟩, List.mem_cons_self, ?_⟩
  rintro ⟨_, hmem, -⟩
  cases hmem

/-- The second tuple is without the column, and the first is in the buffer by then. -/
theorem not_failsCleanly_second :
    ¬FailsCleanly insertionSort [97] .ASCENDING listNext [⟨[⟨[97], .int 1⟩]⟩, ⟨[]⟩]
      [⟨[⟨[97], .int 1⟩]⟩, ⟨[]⟩] := by
  refine not_failsCleanly (streams_listNext _) ?_
  intro hmissing
  have hcolumn : HasColumn [97] ⟨[]⟩ :=
    (List.pairwise_cons.mp hmissing).1 ⟨[]⟩ List.mem_cons_self
      ⟨⟨[97], .int 1⟩, List.mem_cons_self, rfl⟩
  obtain ⟨_, hmem, -⟩ := hcolumn
  cases hmem

end Nyctomek.TomekDB
