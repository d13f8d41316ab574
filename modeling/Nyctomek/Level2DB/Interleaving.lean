/-
# `Level2DB.Interleaving` — a range scan among other calls

The iterator that `RangeScan` returns holds two `const_iterator`s of the map, and the database
can be called between the calls of its own functions.  An insertion leaves them where they are;
an erasure makes those invalid that stand at the pair erased.

    Put(k, v)        the iterator comes to `k` if it has not come past it yet
    Delete(k)        undefined with the next `Next`, `Key` or `Value` if it stands at `k`, and
                     with the next `Next` if it was to end there
    Key(), Value()   undefined past the end of the map

What the iterator comes to is in `scan_visits`, when the scan goes wrong in `scan_fails_iff`.
-/
import Mathlib.Data.List.Infix
import Nyctomek.Level2DB.RangeScan
import Nyctomek.Prog.MapIterator

namespace Nyctomek.Level2DB

open Prog

/-! ## The iterator -/

/-- `Iterator`, with iterators of a map that may change. -/
structure OpenIterator where
  m_current : Position Bytes
  m_end : Position Bytes
  deriving DecidableEq, Repr

/-- `RangeScan`. -/
def Database.openScan (db : Database) (start end_ : Bytes) : OpenIterator :=
  ⟨.of (db.rangeScan start end_).m_current, .of (db.rangeScan start end_).m_end⟩

namespace OpenIterator

/-- `Iterator::Next`, on the map as it is now. -/
def next (m : SortedMap Bytes Bytes) (it : OpenIterator) :
    Except (Fault ⊕ IteratorFault) (Bool × OpenIterator) := do
  let m_current ← (it.m_current.resolve m).mapError .inr
  let m_end ← (it.m_end.resolve m).mapError .inr
  let (more, it') ← (Iterator.next ⟨m_current, m_end⟩).mapError .inl
  .ok (more, { it with m_current := .of it'.m_current })

/-- `Iterator::Key` and `Iterator::Value` read where the iterator stands. -/
def reads (read : Iterator → Except Fault Bytes) (m : SortedMap Bytes Bytes) (it : OpenIterator) :
    Except (Fault ⊕ IteratorFault) Bytes := do
  let m_current ← (it.m_current.resolve m).mapError .inr
  (read ⟨m_current, []⟩).mapError .inl

/-- `Iterator::Key`. -/
def key : SortedMap Bytes Bytes → OpenIterator → Except (Fault ⊕ IteratorFault) Bytes :=
  reads Iterator.key

/-- `Iterator::Value`. -/
def value : SortedMap Bytes Bytes → OpenIterator → Except (Fault ⊕ IteratorFault) Bytes :=
  reads Iterator.value

/-- What a call of the database leaves of it. -/
def after (db : Database) (it : OpenIterator) : Call → OpenIterator
  | .Delete key =>
      if db.m_useSkipList then it else ⟨it.m_current.erase key, it.m_end.erase key⟩
  | .Put _ _ | .Get _ | .Has _ => it

/-- One of its iterators is invalid. -/
def Broken (it : OpenIterator) : Prop := it.m_current = .erased ∨ it.m_end = .erased

end OpenIterator

/-- What happens in the course of a scan. -/
inductive Act where
  | call (call : Call)
  | next
  | key
  | value
  deriving DecidableEq, Repr

namespace Act

/-- A function of the iterator. -/
def OnIterator : Act → Prop
  | call _ => False
  | next | key | value => True

/-- A function that reads the pair that the iterator stands at. -/
def Reads : Act → Prop
  | call _ | next => False
  | key | value => True

end Act

/-- What a function of the iterator has returned. -/
inductive Shown where
  | more (more : Bool)
  | key (key : Bytes)
  | value (value : Bytes)
  deriving DecidableEq, Repr

/-- A session with a scan: the iterator, the keys that it has come to, what its functions have
returned, and the last result of `Next`. -/
structure Scan where
  session : Session
  iterator : OpenIterator
  visited : List Bytes
  shown : List Shown
  more : Bool

namespace Scan

/-- The scan is opened. -/
def start (session : Session) (start end_ : Bytes) : Scan :=
  let iterator := session.db.openScan start end_
  ⟨session, iterator, iterator.m_current.key?.toList, [], true⟩

def next (s : Scan) : Except (Fault ⊕ IteratorFault) Scan := do
  let (more, iterator) ← s.iterator.next s.session.db.m_keyValueStore
  let visited := if more then s.visited ++ iterator.m_current.key?.toList else s.visited
  .ok ⟨s.session, iterator, visited, s.shown ++ [.more more], more⟩

def key (s : Scan) : Except (Fault ⊕ IteratorFault) Scan := do
  let key ← s.iterator.key s.session.db.m_keyValueStore
  .ok { s with shown := s.shown ++ [.key key] }

def value (s : Scan) : Except (Fault ⊕ IteratorFault) Scan := do
  let value ← s.iterator.value s.session.db.m_keyValueStore
  .ok { s with shown := s.shown ++ [.value value] }

def act (fuel : Nat) (s : Scan) : Act → Exec (Fault ⊕ IteratorFault) Scan
  | .call call => do
      let session ← ExceptT.adapt .inl (s.session.call fuel call)
      return { s with session, iterator := s.iterator.after s.session.db call }
  | .next => done s.next
  | .key => done s.key
  | .value => done s.value

def run (fuel : Nat) (session : Session) (start end_ : Bytes) (acts : List Act) :
    Exec (Fault ⊕ IteratorFault) Scan :=
  acts.foldlM (act fuel) (Scan.start session start end_)

end Scan

/-- The calls of the database among the acts. -/
def callsOf (acts : List Act) : List Call :=
  acts.filterMap fun
    | .call call => some call
    | .next | .key | .value => none

theorem callsOf_concat_call (acts : List Act) (call : Call) :
    callsOf (acts ++ [.call call]) = callsOf acts ++ [call] := by
  simp [callsOf]

/-- Functions of the iterator leave the database as it is. -/
theorem callsOf_concat {act : Act} (h : act.OnIterator) (acts : List Act) :
    callsOf (acts ++ [act]) = callsOf acts := by
  cases act with
  | call call => exact absurd h id
  | next => simp [callsOf]
  | key => simp [callsOf]
  | value => simp [callsOf]

/-! ## One map -/

section
variable {m : SortedMap Bytes Bytes} {it : OpenIterator} {k : Bytes}

/-- **`Next` with valid iterators**: the iterator is at its end, or past the end of the map, or
moves on to the key behind. -/
theorem OpenIterator.next_cases (hcurrent : it.m_current.Valid m) (hend : it.m_end.Valid m) :
    (it.m_current = it.m_end ∧ it.next m = .ok (false, it)) ∨
    (it.m_current = .pastEnd ∧ it.m_end ≠ .pastEnd ∧ it.next m = .error (.inl .endIterator)) ∨
    ∃ k p, it.m_current = .element k ∧ it.m_end ≠ .element k ∧ Position.Follows m k p ∧
      p.Valid m ∧ it.next m = .ok (if p = it.m_end then false else true, { it with m_current := p }) := by
  obtain ⟨B, hB, hBm, hBof⟩ := hcurrent.resolve
  obtain ⟨E, hE, hEm, hEof⟩ := hend.resolve
  have hnext : it.next m = (do
      let (more, it') ← (Iterator.next ⟨B, E⟩).mapError .inl
      .ok (more, { it with m_current := .of it'.m_current })) := by
    rw [OpenIterator.next, hB, hE]
    rfl
  by_cases heq : B = E
  · subst heq
    refine .inl ⟨hBof.symm.trans hEof, ?_⟩
    rw [hnext, next_end]
    show Except.ok (false, { it with m_current := Position.of B }) = _
    rw [hBof]
  · have hne : it.m_current ≠ it.m_end := by
      rw [← hBof, ← hEof]
      exact fun h => heq (Position.of_inj hBm hEm h)
    cases B with
    | nil =>
        refine .inr (.inl ⟨hBof.symm, fun h => hne (hBof.symm.trans h.symm), ?_⟩)
        rw [hnext, Iterator.next, if_neg heq]
        rfl
    | cons pair B =>
        obtain ⟨hfollows, hBm', -⟩ := Position.follows_of_suffix hBm
        refine .inr (.inr ⟨pair.1, .of B, hBof.symm, fun h => hne (hBof.symm.trans h.symm), hfollows,
          hfollows.valid, ?_⟩)
        have hlast : (Position.of B = it.m_end) = (B = E) := by
          rw [← hEof]
          exact propext ⟨Position.of_inj hBm' hEm, congrArg Position.of⟩
        rw [hnext, Iterator.next, if_neg heq]
        simp only [hlast, Iterator.increment, ok_bind]
        split <;> rfl

/-- What `Key` and `Value` return. -/
theorem OpenIterator.reads_element (hcurrent : it.m_current.Valid m) (hk : it.m_current = .element k) :
    ∃ v, m.get? k = some v ∧ it.key m = .ok k ∧ it.value m = .ok v := by
  obtain ⟨B, hB, hBm, hBof⟩ := hcurrent.resolve
  cases B with
  | nil => cases hBof.trans hk
  | cons pair B =>
      obtain ⟨-, -, hget⟩ := Position.follows_of_suffix hBm
      obtain rfl := Position.element.inj (hBof.trans hk)
      refine ⟨pair.2, hget, ?_, ?_⟩
      · rw [OpenIterator.key, OpenIterator.reads, hB]
        rfl
      · rw [OpenIterator.value, OpenIterator.reads, hB]
        rfl

/-- Elsewhere there is nothing to read. -/
theorem OpenIterator.reads_error (read : Iterator → Except Fault Bytes)
    (hread : ∀ E, ∃ e, read ⟨[], E⟩ = .error e)
    (h : it.m_current = .erased ∨ it.m_current = .pastEnd) : ∃ e, it.reads read m = .error e := by
  rcases h with h | h
  · exact ⟨.inr .erased, by rw [OpenIterator.reads, h]; rfl⟩
  · obtain ⟨e, he⟩ := hread []
    refine ⟨.inl e, ?_⟩
    rw [OpenIterator.reads, h]
    show Except.mapError Sum.inl (read ⟨[], []⟩) = _
    rw [he]
    rfl

theorem OpenIterator.next_broken (h : it.Broken) : it.next m = .error (.inr .erased) := by
  rcases h with h | h
  · rw [OpenIterator.next, h]
    rfl
  · rw [OpenIterator.next, h]
    cases it.m_current <;> rfl

end

/-! ## One act -/

section
variable {before : List Call} {s : Session} {start end_ key : Bytes} {acts : List Act} {t t' : Scan}

/-- It is an error to call a function of the iterator where that is. -/
def Faulty (it : OpenIterator) : Act → Prop
  | .call _ => False
  | .next => it.Broken ∨ (it.m_current = .pastEnd ∧ it.m_end ≠ .pastEnd)
  | .key | .value => it.m_current = .erased ∨ it.m_current = .pastEnd

/-- The state of a scan, with `acts` done: what the iterator stands at is stored. -/
structure Open (before : List Call) (acts : List Act) (t : Scan) : Prop where
  state : MapState (before ++ callsOf acts) t.session
  current : t.iterator.m_current ≠ .erased → t.iterator.m_current.Valid t.session.db.m_keyValueStore
  ends : t.iterator.m_end ≠ .erased → t.iterator.m_end.Valid t.session.db.m_keyValueStore

/-- What an act erases. -/
def Erases (act : Act) (p p' : Position Bytes) : Prop :=
  p' = .erased ↔ p = .erased ∨ ∃ key, act = .call (.Delete key) ∧ p = .element key

theorem Erases.of_onIterator {act : Act} (h : act.OnIterator) {p p' : Position Bytes}
    (hp : p' = .erased ↔ p = .erased) : Erases act p p' := by
  rw [Erases, hp]
  refine ⟨.inl, fun h' => h'.resolve_right ?_⟩
  rintro ⟨key, rfl, -⟩
  exact h

theorem Open.opened (h : MapState before s) (start end_ : Bytes) :
    Open before [] (Scan.start s start end_) where
  state := (List.append_nil before).symm ▸ h
  current _ := Position.Valid.find _ _
  ends _ := Position.Valid.find _ _

/-- A position stays valid unless its element is deleted. -/
theorem valid_call {calls : List Call} {s s' : Session} {call : Call} {p : Position Bytes}
    (hs : MapState calls s) (hs' : MapState (calls ++ [call]) s')
    (h : p.Valid s.db.m_keyValueStore) (hkeep : ∀ key, call = .Delete key → p ≠ .element key) :
    p.Valid s'.db.m_keyValueStore := by
  refine ⟨h.stands, ?_⟩
  rintro k rfl
  have hstored := h.stored k rfl
  rw [hs.stored] at hstored
  rw [hs'.stored, latest_concat]
  cases call with
  | Put key value =>
      rw [latestStep]
      split
      · rfl
      · exact hstored
  | Delete key =>
      rw [latestStep, if_neg fun heq => hkeep key rfl (congrArg _ heq)]
      exact hstored
  | Get key => exact hstored
  | Has key => exact hstored

/-- What a call of the database does to the iterator. -/
theorem after_eq (db : Database) (it : OpenIterator) (call : Call) (hmode : db.m_useSkipList = false) :
    it.after db call = it ∧ (∀ key, call ≠ .Delete key) ∨
      ∃ key, call = .Delete key ∧ it.after db call = ⟨it.m_current.erase key, it.m_end.erase key⟩ := by
  cases call with
  | Delete key => exact .inr ⟨key, rfl, if_neg (by simp [hmode])⟩
  | Put key value => exact .inl ⟨rfl, fun _ h => (nomatch h)⟩
  | Get key => exact .inl ⟨rfl, fun _ h => (nomatch h)⟩
  | Has key => exact .inl ⟨rfl, fun _ h => (nomatch h)⟩

/-- **A call of the database** never goes wrong; it erases at most where the iterator stands or
is to end. -/
theorem Open.call (h : Open before acts t) (call : Call) :
    ∃ session, Ends (fun fuel => t.act fuel (.call call))
        (.ok { t with session, iterator := t.iterator.after t.session.db call }) ∧
      Open before (acts ++ [.call call])
        { t with session, iterator := t.iterator.after t.session.db call } ∧
      Erases (.call call) t.iterator.m_current (t.iterator.after t.session.db call).m_current ∧
      Erases (.call call) t.iterator.m_end (t.iterator.after t.session.db call).m_end := by
  obtain ⟨session, hends, hstate⟩ := h.state.call call
  have hstate' : MapState (before ++ callsOf (acts ++ [.call call])) session := by
    rw [callsOf_concat_call, ← List.append_assoc]
    exact hstate
  refine ⟨session, (hends.adapt Sum.inl).bind (Ends.const _), ?_⟩
  rcases after_eq t.session.db t.iterator call h.state.mode with ⟨hsame, hkeep⟩ | ⟨key, rfl, herase⟩
  · rw [hsame]
    have hvalid : ∀ {p : Position Bytes}, p.Valid t.session.db.m_keyValueStore →
        p.Valid session.db.m_keyValueStore :=
      fun hp => valid_call h.state hstate hp fun key heq => absurd heq (hkeep key)
    have herases : ∀ p : Position Bytes, Erases (.call call) p p := by
      intro p
      refine ⟨.inl, fun h' => h'.resolve_right ?_⟩
      rintro ⟨key, heq, -⟩
      exact hkeep key (Act.call.inj heq)
    exact ⟨⟨hstate', fun hc => hvalid (h.current hc), fun he => hvalid (h.ends he)⟩, herases _,
      herases _⟩
  · rw [herase]
    have hvalid : ∀ {p : Position Bytes},
        (p ≠ .erased → p.Valid t.session.db.m_keyValueStore) → p.erase key ≠ .erased →
        (p.erase key).Valid session.db.m_keyValueStore := by
      intro p hp hne
      have hkeep := not_or.mp (mt Position.erase_eq_erased.mpr hne)
      rw [Position.erase, if_neg hkeep.2]
      refine valid_call h.state hstate (hp hkeep.1) ?_
      rintro _ ⟨⟩
      exact hkeep.2
    have herases : ∀ p : Position Bytes, Erases (.call (.Delete key)) p (p.erase key) := by
      intro p
      rw [Erases, Position.erase_eq_erased]
      simp
    exact ⟨⟨hstate', hvalid h.current, hvalid h.ends⟩, herases _, herases _⟩

/-- Functions of the iterator leave what is stored as it is. -/
theorem Open.onIterator (h : Open before acts t) {act : Act} (hact : act.OnIterator)
    (hsession : t'.session = t.session)
    (hcurrent : t'.iterator.m_current ≠ .erased →
      t'.iterator.m_current.Valid t.session.db.m_keyValueStore)
    (hend : t'.iterator.m_end = t.iterator.m_end) : Open before (acts ++ [act]) t' where
  state := by
    rw [callsOf_concat hact, hsession]
    exact h.state
  current := by
    rw [hsession]
    exact hcurrent
  ends := by
    rw [hsession, hend]
    exact h.ends

/-- **`Next` where it is no error**: the iterator stays at its end, or moves on to the key behind,
or to the end. -/
theorem Open.next (h : Open before acts t) (hright : ¬ Faulty t.iterator .next) :
    (t.iterator.m_current = t.iterator.m_end ∧
      t.next = .ok { t with shown := t.shown ++ [.more false], more := false }) ∨
    ∃ k p, t.iterator.m_current = .element k ∧ t.iterator.m_end ≠ .element k ∧
      Position.Follows t.session.db.m_keyValueStore k p ∧
      ((p = t.iterator.m_end ∧ t.next = .ok { t with
          iterator := ⟨p, t.iterator.m_end⟩, shown := t.shown ++ [.more false], more := false }) ∨
        (p ≠ t.iterator.m_end ∧ t.next = .ok { t with
          iterator := ⟨p, t.iterator.m_end⟩, visited := t.visited ++ p.key?.toList,
          shown := t.shown ++ [.more true], more := true })) := by
  obtain ⟨hvalid, hpast⟩ := not_or.mp hright
  obtain ⟨hcurrent, hend⟩ := not_or.mp hvalid
  rcases OpenIterator.next_cases (h.current hcurrent) (h.ends hend) with
    ⟨hsame, hnext⟩ | ⟨hcur, hne, -⟩ | ⟨k, p, hk, hne, hfollows, -, hnext⟩
  · refine .inl ⟨hsame, ?_⟩
    rw [Scan.next, hnext]
    rfl
  · exact absurd ⟨hcur, hne⟩ hpast
  · refine .inr ⟨k, p, hk, hne, hfollows, ?_⟩
    by_cases hlast : p = t.iterator.m_end
    · rw [if_pos hlast] at hnext
      refine .inl ⟨hlast, ?_⟩
      rw [Scan.next, hnext]
      rfl
    · rw [if_neg hlast] at hnext
      refine .inr ⟨hlast, ?_⟩
      rw [Scan.next, hnext]
      rfl

theorem Open.next_error (h : Open before acts t) (hfaulty : Faulty t.iterator .next) :
    ∃ e, t.next = .error e := by
  by_cases hbroken : t.iterator.Broken
  · refine ⟨.inr .erased, ?_⟩
    rw [Scan.next, OpenIterator.next_broken hbroken]
    rfl
  · obtain ⟨hpast, hne⟩ := hfaulty.resolve_left hbroken
    obtain ⟨hcurrent, hend⟩ := not_or.mp hbroken
    rcases OpenIterator.next_cases (h.current hcurrent) (h.ends hend) with
      ⟨hsame, -⟩ | ⟨-, -, hnext⟩ | ⟨k, p, hk, -⟩
    · exact absurd (hsame.symm.trans hpast) hne
    · refine ⟨.inl .endIterator, ?_⟩
      rw [Scan.next, hnext]
      rfl
    · cases hpast.symm.trans hk

/-- **`Key` and `Value`** return the key that the iterator stands at, and its value. -/
theorem Open.reads (h : Open before acts t) (hk : t.iterator.m_current = .element key) :
    ∃ value, latest (before ++ callsOf acts) key = some value ∧
      t.key = .ok { t with shown := t.shown ++ [.key key] } ∧
      t.value = .ok { t with shown := t.shown ++ [.value value] } := by
  have hstands : t.iterator.m_current ≠ .erased := fun herased => nomatch hk.symm.trans herased
  obtain ⟨value, hget, hkey, hvalue⟩ := OpenIterator.reads_element (h.current hstands) hk
  refine ⟨value, ?_, ?_, ?_⟩
  · rw [← h.state.stored, hget]
  · rw [Scan.key, hkey]
    rfl
  · rw [Scan.value, hvalue]
    rfl

theorem ends_done {r : Except (Fault ⊕ IteratorFault) Scan} {act : Act}
    (hact : ∀ fuel, t.act fuel act = done r) : Ends (fun fuel => t.act fuel act) r :=
  (Ends.const r).congr hact

/-- **One act**: it goes wrong where it is an error, and otherwise leaves the scan open. -/
theorem Open.act_cases (h : Open before acts t) (act : Act) :
    (Faulty t.iterator act ∧ ∃ e, Ends (fun fuel => t.act fuel act) (.error e)) ∨
    (¬ Faulty t.iterator act ∧ ∃ t', Ends (fun fuel => t.act fuel act) (.ok t') ∧
      Open before (acts ++ [act]) t' ∧ Erases act t.iterator.m_current t'.iterator.m_current ∧
      Erases act t.iterator.m_end t'.iterator.m_end) := by
  have hshow : ∀ {act : Act} (hact : act.OnIterator) (t' : Scan), t'.session = t.session →
      t'.iterator = t.iterator → Open before (acts ++ [act]) t' ∧
        Erases act t.iterator.m_current t'.iterator.m_current ∧
        Erases act t.iterator.m_end t'.iterator.m_end := by
    intro act hact t' hsession hiterator
    rw [hiterator]
    exact ⟨h.onIterator hact hsession (by rw [hiterator]; exact h.current) (by rw [hiterator]),
      .of_onIterator hact Iff.rfl, .of_onIterator hact Iff.rfl⟩
  cases act with
  | call call =>
      obtain ⟨session, hends, hopen, hcurrent, hend⟩ := h.call call
      exact .inr ⟨id, _, hends, hopen, hcurrent, hend⟩
  | next =>
      by_cases hfaulty : Faulty t.iterator .next
      · refine .inl ⟨hfaulty, ?_⟩
        obtain ⟨e, he⟩ := h.next_error hfaulty
        exact ⟨e, ends_done fun _ => congrArg done he⟩
      · rcases h.next hfaulty with ⟨hsame, hnext⟩ | ⟨k, p, hk, hne, hfollows, hmoved⟩
        · obtain ⟨hopen, herases⟩ := hshow (show Act.OnIterator .next from trivial)
            { t with shown := t.shown ++ [.more false], more := false } rfl rfl
          exact .inr ⟨hfaulty, _, ends_done fun _ => congrArg done hnext, hopen, herases⟩
        · have hvalid := hfollows.valid
          have hmoves : ∀ t' : Scan, t'.session = t.session → t'.iterator = ⟨p, t.iterator.m_end⟩ →
              Open before (acts ++ [.next]) t' ∧
                Erases .next t.iterator.m_current t'.iterator.m_current ∧
                Erases .next t.iterator.m_end t'.iterator.m_end := by
            intro t' hsession hiterator
            rw [hiterator]
            have hact : Act.OnIterator .next := trivial
            refine ⟨h.onIterator hact hsession ?_ ?_, .of_onIterator hact ?_,
              .of_onIterator hact Iff.rfl⟩
            · rw [hiterator]
              exact fun _ => hvalid
            · rw [hiterator]
            · exact iff_of_false hvalid.stands (fun h' => nomatch hk.symm.trans h')
          rcases hmoved with ⟨-, hnext⟩ | ⟨-, hnext⟩
          · exact .inr ⟨hfaulty, _, ends_done fun _ => congrArg done hnext, hmoves _ rfl rfl⟩
          · exact .inr ⟨hfaulty, _, ends_done fun _ => congrArg done hnext, hmoves _ rfl rfl⟩
  | key =>
      by_cases hfaulty : Faulty t.iterator .key
      · obtain ⟨e, he⟩ := OpenIterator.reads_error (m := t.session.db.m_keyValueStore) Iterator.key
          (fun _ => ⟨_, rfl⟩) hfaulty
        have hkey : t.key = .error e := by
          rw [Scan.key, OpenIterator.key, he]
          rfl
        exact .inl ⟨hfaulty, e, ends_done fun _ => congrArg done hkey⟩
      · obtain ⟨k, hk⟩ := Position.exists_element_iff.mpr hfaulty
        obtain ⟨_, -, hkey, -⟩ := h.reads hk
        obtain ⟨hopen, herases⟩ := hshow (show Act.OnIterator .key from trivial)
          { t with shown := t.shown ++ [.key k] } rfl rfl
        exact .inr ⟨hfaulty, _, ends_done fun _ => congrArg done hkey, hopen, herases⟩
  | value =>
      by_cases hfaulty : Faulty t.iterator .value
      · obtain ⟨e, he⟩ := OpenIterator.reads_error (m := t.session.db.m_keyValueStore) Iterator.value
          (fun _ => ⟨_, rfl⟩) hfaulty
        have hvalue : t.value = .error e := by
          rw [Scan.value, OpenIterator.value, he]
          rfl
        exact .inl ⟨hfaulty, e, ends_done fun _ => congrArg done hvalue⟩
      · obtain ⟨k, hk⟩ := Position.exists_element_iff.mpr hfaulty
        obtain ⟨v, -, -, hvalue⟩ := h.reads hk
        obtain ⟨hopen, herases⟩ := hshow (show Act.OnIterator .value from trivial)
          { t with shown := t.shown ++ [.value v] } rfl rfl
        exact .inr ⟨hfaulty, _, ends_done fun _ => congrArg done hvalue, hopen, herases⟩

/-! ## The run -/

theorem run_append (past rest : List Act) (fuel : Nat) :
    Scan.run fuel s start end_ (past ++ rest)
      = Scan.run fuel s start end_ past >>= rest.foldlM (Scan.act fuel) := by
  simp only [Scan.run, List.foldlM_append]

theorem run_concat {past : List Act} (hpast : Ends (fun fuel => Scan.run fuel s start end_ past) (.ok t))
    (act : Act) {r : Except (Fault ⊕ IteratorFault) Scan} :
    Ends (fun fuel => Scan.run fuel s start end_ (past ++ [act])) r ↔
      Ends (fun fuel => t.act fuel act) r := by
  have hrun : ∀ fuel, Scan.run fuel s start end_ (past ++ [act])
      = Scan.run fuel s start end_ past >>= fun t => t.act fuel act := by
    intro fuel
    rw [run_append]
    simp only [List.foldlM_cons, List.foldlM_nil, bind_pure]
  simp only [hrun]
  exact hpast.bind_iff

theorem run_error {past : List Act} {e : Fault ⊕ IteratorFault}
    (hpast : Ends (fun fuel => Scan.run fuel s start end_ past) (.error e)) (rest : List Act) :
    Ends (fun fuel => Scan.run fuel s start end_ (past ++ rest)) (.error e) :=
  Ends.congr (run_append past rest) hpast.bind_error

theorem run_nil : Ends (fun fuel => Scan.run fuel s start end_ []) (.ok (Scan.start s start end_)) :=
  (Ends.const _).congr fun _ => rfl

/-- **Every run** leaves the scan open, or goes wrong. -/
theorem run_cases (h : MapState before s) (start end_ : Bytes) (acts : List Act) :
    (∃ t, Ends (fun fuel => Scan.run fuel s start end_ acts) (.ok t) ∧ Open before acts t) ∨
      ∃ e, Ends (fun fuel => Scan.run fuel s start end_ acts) (.error e) := by
  induction acts using List.reverseRecOn with
  | nil => exact .inl ⟨_, run_nil, Open.opened h start end_⟩
  | append_singleton past act ih =>
      rcases ih with ⟨t, hpast, hopen⟩ | ⟨e, he⟩
      · rcases hopen.act_cases act with ⟨-, e, he⟩ | ⟨-, t', hact, hopen', -⟩
        · exact .inr ⟨e, (run_concat hpast act).mpr he⟩
        · exact .inl ⟨t', (run_concat hpast act).mpr hact, hopen'⟩
      · exact .inr ⟨e, run_error he [act]⟩

/-- The last act of a run that has not gone wrong. -/
theorem run_last (h : MapState before s) {act : Act}
    (hrun : Ends (fun fuel => Scan.run fuel s start end_ (acts ++ [act])) (.ok t')) :
    ∃ t, Ends (fun fuel => Scan.run fuel s start end_ acts) (.ok t) ∧ Open before acts t ∧
      ¬ Faulty t.iterator act ∧ Ends (fun fuel => t.act fuel act) (.ok t') ∧
      Erases act t.iterator.m_current t'.iterator.m_current ∧
      Erases act t.iterator.m_end t'.iterator.m_end := by
  rcases run_cases h start end_ acts with ⟨t, hpast, hopen⟩ | ⟨e, he⟩
  · have hact := (run_concat hpast act).mp hrun
    rcases hopen.act_cases act with ⟨-, e, he⟩ | ⟨hright, t'', hact', -, hcurrent, hend⟩
    · cases hact.unique he
    · obtain rfl := Except.ok.inj (hact.unique hact')
      exact ⟨t, hpast, hopen, hright, hact, hcurrent, hend⟩
  · cases hrun.unique (run_error he [act])

/-- A run comes to an act that is an error, if it goes wrong. -/
theorem run_fails_iff (h : MapState before s) (acts : List Act) :
    (∃ e, Ends (fun fuel => Scan.run fuel s start end_ acts) (.error e)) ↔
      ∃ past act rest t, acts = past ++ act :: rest ∧
        Ends (fun fuel => Scan.run fuel s start end_ past) (.ok t) ∧ Faulty t.iterator act := by
  constructor
  · rintro ⟨e, he⟩
    induction acts using List.reverseRecOn generalizing e with
    | nil => cases he.unique run_nil
    | append_singleton past act ih =>
        rcases run_cases h start end_ past with ⟨t, hpast, hopen⟩ | ⟨e', he'⟩
        · rcases hopen.act_cases act with ⟨hfaulty, -⟩ | ⟨-, t', hact, -⟩
          · exact ⟨past, act, [], t, rfl, hpast, hfaulty⟩
          · cases he.unique ((run_concat hpast act).mpr hact)
        · obtain ⟨past', act', rest, t, rfl, hpast, hfaulty⟩ := ih e' he'
          exact ⟨past', act', rest ++ [act], t, by simp, hpast, hfaulty⟩
  · rintro ⟨past, act, rest, t, rfl, hpast, hfaulty⟩
    rcases run_cases h start end_ past with ⟨t', hpast', hopen⟩ | ⟨e, he⟩
    · obtain rfl := Except.ok.inj (hpast.unique hpast')
      rcases hopen.act_cases act with ⟨-, e, he⟩ | ⟨hright, -⟩
      · refine ⟨e, ?_⟩
        have herror := run_error ((run_concat hpast act).mpr he) rest
        rwa [List.append_assoc] at herror
      · exact absurd hfaulty hright
    · cases hpast.unique he

/-- The key that a position stands at is deleted in the course of the run. -/
def DeletedAt (position : OpenIterator → Position Bytes) (s : Session) (start end_ : Bytes)
    (acts : List Act) : Prop :=
  ∃ past mid key t, acts = past ++ .call (.Delete key) :: mid ∧
    Ends (fun fuel => Scan.run fuel s start end_ past) (.ok t) ∧ position t.iterator = .element key

/-- **How a position is erased**: its key has been deleted while it stood there. -/
theorem erased_iff (h : MapState before s) {position : OpenIterator → Position Bytes}
    (hposition : position = OpenIterator.m_current ∨ position = OpenIterator.m_end)
    (hrun : Ends (fun fuel => Scan.run fuel s start end_ acts) (.ok t)) :
    position t.iterator = .erased ↔ DeletedAt position s start end_ acts := by
  induction acts using List.reverseRecOn generalizing t with
  | nil =>
      obtain rfl := Except.ok.inj (hrun.unique run_nil)
      refine iff_of_false ?_ ?_
      · rcases hposition with rfl | rfl
        · exact (Position.Valid.find _ _).stands
        · exact (Position.Valid.find _ _).stands
      · rintro ⟨past, mid, key, t, heq, -⟩
        simp at heq
  | append_singleton acts act ih =>
      obtain ⟨t₁, hpast, -, -, -, hcurrent, hend⟩ := run_last h hrun
      have herases : Erases act (position t₁.iterator) (position t.iterator) := by
        rcases hposition with rfl | rfl
        · exact hcurrent
        · exact hend
      rw [Erases.eq_def] at herases
      rw [herases, ih hpast]
      constructor
      · rintro (⟨past, mid, key, t₂, rfl, hends, hat⟩ | ⟨key, rfl, hat⟩)
        · exact ⟨past, mid ++ [act], key, t₂, by simp, hends, hat⟩
        · exact ⟨acts, [], key, t₁, rfl, hpast, hat⟩
      · rintro ⟨past, mid, key, t₂, heq, hends, hat⟩
        rcases List.eq_nil_or_concat mid with rfl | ⟨mid, last, rfl⟩
        · obtain ⟨rfl, hlast⟩ := List.append_inj' heq rfl
          obtain rfl := Except.ok.inj (hpast.unique hends)
          exact .inr ⟨key, (List.cons.inj hlast).1, hat⟩
        · rw [List.concat_eq_append, ← List.cons_append, ← List.append_assoc] at heq
          obtain ⟨rfl, -⟩ := List.append_inj' heq rfl
          exact .inl ⟨past, mid, key, t₂, rfl, hends, hat⟩

end

/-- **When a scan goes wrong**, from any key to any other and whatever is called in its course:
exactly if the key that the iterator stands at is deleted and one of its functions called at some
time after that, or the key that it is to end at and `Next` called; or if past the end of the map
it is read, or moved on though it is to end at a key. -/
theorem scan_fails_iff {before : List Call} {s : Session} {draws : Draws}
    (h : Ends (fun fuel => (Session.start false draws).run fuel before) (.ok s)) (start end_ : Bytes)
    (acts : List Act) :
    (∃ e, Ends (fun fuel => Scan.run fuel s start end_ acts) (.error e)) ↔
      (∃ past mid act rest key t, acts = past ++ .call (.Delete key) :: (mid ++ act :: rest) ∧
        Ends (fun fuel => Scan.run fuel s start end_ past) (.ok t) ∧
        ((t.iterator.m_current = .element key ∧ act.OnIterator) ∨
          (t.iterator.m_end = .element key ∧ act = .next))) ∨
      ∃ past act rest t, acts = past ++ act :: rest ∧
        Ends (fun fuel => Scan.run fuel s start end_ past) (.ok t) ∧
        t.iterator.m_current = .pastEnd ∧
          (act.Reads ∨ (act = .next ∧ ∃ key, t.iterator.m_end = .element key)) := by
  have hstate : MapState before s := by
    obtain ⟨s', hends, hstate⟩ := mapRun draws before
    rwa [Except.ok.inj (h.unique hends)]
  rw [run_fails_iff hstate]
  constructor
  · rintro ⟨past, act, rest, t, rfl, hpast, hfaulty⟩
    have hcurrent : act.OnIterator → t.iterator.m_current = .erased →
        ∃ past' mid act' rest' key t', past ++ act :: rest
            = past' ++ .call (.Delete key) :: (mid ++ act' :: rest') ∧
          Ends (fun fuel => Scan.run fuel s start end_ past') (.ok t') ∧
          ((t'.iterator.m_current = .element key ∧ act'.OnIterator) ∨
            (t'.iterator.m_end = .element key ∧ act' = .next)) := by
      intro hact herased
      obtain ⟨past', mid, key, t', rfl, hends, hat⟩ := (erased_iff hstate (.inl rfl) hpast).mp herased
      exact ⟨past', mid, act, rest, key, t', by simp, hends, .inl ⟨hat, hact⟩⟩
    cases act with
    | call call => exact absurd hfaulty id
    | next =>
        rcases hfaulty with (herased | herased) | ⟨hpastEnd, hne⟩
        · exact .inl (hcurrent trivial herased)
        · obtain ⟨past', mid, key, t', rfl, hends, hat⟩ :=
            (erased_iff hstate (.inr rfl) hpast).mp herased
          exact .inl ⟨past', mid, .next, rest, key, t', by simp, hends, .inr ⟨hat, rfl⟩⟩
        · cases hend : t.iterator.m_end with
          | element key =>
              exact .inr ⟨past, .next, rest, t, rfl, hpast, hpastEnd, .inr ⟨rfl, key, hend⟩⟩
          | pastEnd => exact absurd hend hne
          | erased =>
              obtain ⟨past', mid, key, t', rfl, hends, hat⟩ :=
                (erased_iff hstate (.inr rfl) hpast).mp hend
              exact .inl ⟨past', mid, .next, rest, key, t', by simp, hends, .inr ⟨hat, rfl⟩⟩
    | key =>
        rcases hfaulty with herased | hpastEnd
        · exact .inl (hcurrent trivial herased)
        · exact .inr ⟨past, .key, rest, t, rfl, hpast, hpastEnd, .inl trivial⟩
    | value =>
        rcases hfaulty with herased | hpastEnd
        · exact .inl (hcurrent trivial herased)
        · exact .inr ⟨past, .value, rest, t, rfl, hpast, hpastEnd, .inl trivial⟩
  · rintro (⟨past, mid, act, rest, key, t, rfl, hpast, hat⟩ |
      ⟨past, act, rest, t, rfl, hpast, hpastEnd, hact⟩)
    · have hsplit : past ++ .call (.Delete key) :: (mid ++ act :: rest)
          = past ++ .call (.Delete key) :: mid ++ act :: rest := by simp
      rw [hsplit]
      rcases run_cases hstate start end_ (past ++ .call (.Delete key) :: mid) with
        ⟨t', hends, -⟩ | ⟨e, he⟩
      · refine ⟨_, act, rest, t', rfl, hends, ?_⟩
        rcases hat with ⟨hat, hact⟩ | ⟨hat, rfl⟩
        · have herased := (erased_iff hstate (.inl rfl) hends).mpr ⟨past, mid, key, t, rfl, hpast, hat⟩
          cases act with
          | call call => exact hact
          | next => exact .inl (.inl herased)
          | key => exact .inl herased
          | value => exact .inl herased
        · exact .inl (.inr ((erased_iff hstate (.inr rfl) hends).mpr
            ⟨past, mid, key, t, rfl, hpast, hat⟩))
      · exact (run_fails_iff hstate _).mp ⟨e, run_error he _⟩
    · refine ⟨past, act, rest, t, rfl, hpast, ?_⟩
      cases act with
      | call call =>
          rcases hact with hact | ⟨hact, -⟩
          · exact hact
          · cases hact
      | next =>
          rcases hact with hact | ⟨-, key, hend⟩
          · exact absurd hact id
          · exact .inr ⟨hpastEnd, fun hend' => nomatch hend.symm.trans hend'⟩
      | key => exact .inr hpastEnd
      | value => exact .inr hpastEnd

/-- The session after `Put("a", "1")` and `Put("b", "2")`. -/
def twoKeysSession : Session := ⟨twoKeys, fun _ => 0, [.status none, .status none]⟩

theorem twoKeysSession_reached : Ends (fun fuel =>
    (Session.start false fun _ => 0).run fuel putTwoKeys) (.ok twoKeysSession) :=
  (Ends.const _).congr fun _ => rfl

/-- `"a"` is deleted while the iterator stands there, and its value read after that. -/
theorem scan_fails_deleted : ∃ e, Ends (fun fuel => Scan.run fuel twoKeysSession [97] [99]
    [.key, .call (.Delete [97]), .call (.Has [98]), .value]) (.error e) := by
  have hkey : Ends (fun fuel => Scan.run fuel twoKeysSession [97] [99] [.key]) (.ok _) :=
    (Ends.const _).congr fun _ => rfl
  exact (scan_fails_iff twoKeysSession_reached [97] [99] _).mpr (.inl
    ⟨[.key], [.call (.Has [98])], .value, [], [97], _, rfl, hkey, .inl ⟨rfl, trivial⟩⟩)

/-! ## What is read -/

section
variable {before : List Call} {s : Session} {start end_ key value : Bytes} {acts : List Act}
  {act : Act} {t t' : Scan}

/-- The keys from `start` on, up to the end if that is stored when the scan is opened. -/
def Ahead (before : List Call) (start end_ key : Bytes) : Prop :=
  start ≤ key ∧ (latest before end_ ≠ none → key < end_)

/-- The key is stored when the scan is opened, and behind each of the acts. -/
def StoredThroughout (before : List Call) (acts : List Act) (key : Bytes) : Prop :=
  ∀ past, past <+: acts → (latest (before ++ callsOf past) key).isSome

/-- The pair is stored at some time. -/
def StoredAtTimes (before : List Call) (acts : List Act) (key value : Bytes) : Prop :=
  ∃ past, past <+: acts ∧ latest (before ++ callsOf past) key = some value

theorem StoredThroughout.front (h : StoredThroughout before (acts ++ [act]) key) :
    StoredThroughout before acts key :=
  fun past hpast => h past (hpast.trans (List.prefix_append _ _))

theorem StoredAtTimes.extend (h : StoredAtTimes before acts key value) (act : Act) :
    StoredAtTimes before (acts ++ [act]) key value := by
  obtain ⟨past, hpast, hstored⟩ := h
  exact ⟨past, hpast.trans (List.prefix_append _ _), hstored⟩

/-- Where a key or a value is read: at a key that the iterator has come to, or at its end. -/
def ReadAt (before : List Call) (end_ : Bytes) (visited : List Bytes) (key : Bytes) : Prop :=
  key ∈ visited ∨ (key = end_ ∧ latest before end_ ≠ none)

/-- What has been returned is of such a key, and was stored at some time. -/
def ShownRight (before : List Call) (end_ : Bytes) (acts : List Act) (visited : List Bytes) :
    Shown → Prop
  | .more _ => True
  | .key key => ReadAt before end_ visited key
  | .value value => ∃ key, ReadAt before end_ visited key ∧ StoredAtTimes before acts key value

theorem ShownRight.extend {visited : List Bytes} {shown : Shown}
    (h : ShownRight before end_ acts visited shown) (act : Act) (more : List Bytes) :
    ShownRight before end_ (acts ++ [act]) (visited ++ more) shown := by
  cases shown with
  | more _ => trivial
  | key key => exact Or.imp (List.mem_append_left more) id h
  | value value =>
      obtain ⟨key, hread, hstored⟩ := h
      exact ⟨key, hread.imp (List.mem_append_left more) id, hstored.extend act⟩

/-- Where the iterator stands: at the key come to last, or at its end, if it has not become
invalid. -/
inductive Stands (before : List Call) (start end_ : Bytes) (t : Scan) : Prop
  | broken (h : t.iterator.m_current = .erased)
  | atEnd (h : t.iterator.m_current = t.iterator.m_end)
      (hmore : t.more = false ∨ ∀ key, ¬ Ahead before start end_ key)
  | at (key : Bytes) (h : t.iterator.m_current = .element key) (hread : key ∈ t.visited)
      (hlast : ∀ k ∈ t.visited, k ≤ key) (hahead : Ahead before start end_ key)

theorem Stands.congr (h : Stands before start end_ t) (hiterator : t'.iterator = t.iterator)
    (hvisited : t'.visited = t.visited) (hmore : t'.more = t.more) :
    Stands before start end_ t' := by
  cases h with
  | broken h => exact .broken (by rw [hiterator, h])
  | atEnd h hmore' => exact .atEnd (by rw [hiterator, h]) (by rwa [hmore])
  | «at» key h hread hlast hahead =>
      exact .at key (by rw [hiterator, h]) (by rwa [hvisited]) (by rwa [hvisited]) hahead

/-- The state of a scan of a range, with `acts` done. -/
structure Scanning (before : List Call) (start end_ : Bytes) (acts : List Act) (t : Scan) : Prop where
  ascending : t.visited.Pairwise (· < ·)
  range : ∀ k ∈ t.visited, k = start ∨ Ahead before start end_ k
  stored : ∀ k ∈ t.visited, ∃ value, StoredAtTimes before acts k value
  passed : ∀ key, Ahead before start end_ key → StoredThroughout before acts key →
    key ∈ t.visited ∨ (t.more = true ∧ ∀ k ∈ t.visited, k < key)
  shown : ∀ x ∈ t.shown, ShownRight before end_ acts t.visited x
  stands : Stands before start end_ t
  ends : t.iterator.m_end = .erased ∨
    (latest before end_ = none ∧ t.iterator.m_end = .pastEnd) ∨
      (latest before end_ ≠ none ∧ t.iterator.m_end = .element end_)

/-- What is asked for at the opening, in map mode: the start is stored, and the end, if it is, is
not before it. -/
structure Opens (before : List Call) (s : Session) (start end_ : Bytes) : Prop where
  reached : ∃ draws, Ends (fun fuel => (Session.start false draws).run fuel before) (.ok s)
  startStored : latest before start ≠ none
  ordered : latest before end_ ≠ none → start ≤ end_

theorem Opens.state (h : Opens before s start end_) : MapState before s := by
  obtain ⟨draws, hends⟩ := h.reached
  obtain ⟨s', hends', hstate⟩ := mapRun draws before
  rwa [Except.ok.inj (hends.unique hends')]

/-- The position of a key at the opening. -/
theorem MapState.position_eq (h : MapState before s) (key : Bytes) :
    Position.of (s.db.m_keyValueStore.find key)
      = if (latest before key).isSome then .element key else .pastEnd := by
  rw [← h.stored key, Position.of_find]

theorem Opens.current (h : Opens before s start end_) :
    (Scan.start s start end_).iterator.m_current = .element start ∧
      (Scan.start s start end_).visited = [start] := by
  have hcurrent : Position.of (s.db.m_keyValueStore.find start) = .element start := by
    rw [h.state.position_eq, if_pos (Option.isSome_iff_ne_none.mpr h.startStored)]
  refine ⟨hcurrent, ?_⟩
  show (Position.of (s.db.m_keyValueStore.find start)).key?.toList = [start]
  rw [hcurrent]
  rfl

theorem Scanning.opened (h : Opens before s start end_) :
    Scanning before start end_ [] (Scan.start s start end_) := by
  obtain ⟨hcurrent, hvisited⟩ := h.current
  have hends : (latest before end_ = none ∧
        (Scan.start s start end_).iterator.m_end = .pastEnd) ∨
      (latest before end_ ≠ none ∧ (Scan.start s start end_).iterator.m_end = .element end_) := by
    have hend : (Scan.start s start end_).iterator.m_end
        = if (latest before end_).isSome then .element end_ else .pastEnd :=
      h.state.position_eq end_
    rw [hend]
    cases latest before end_ with
    | none => exact .inl ⟨rfl, rfl⟩
    | some w => exact .inr ⟨Option.some_ne_none w, rfl⟩
  obtain ⟨value, hvalue⟩ := Option.ne_none_iff_exists'.mp h.startStored
  constructor
  · rw [hvisited]
    exact List.pairwise_singleton _ _
  · rw [hvisited]
    exact List.forall_mem_singleton.mpr (.inl rfl)
  · rw [hvisited]
    exact List.forall_mem_singleton.mpr
      ⟨value, [], List.nil_prefix, (List.append_nil before).symm ▸ hvalue⟩
  · intro key hahead _
    rw [hvisited]
    rcases eq_or_lt_of_le hahead.1 with rfl | hlt
    · exact .inl (List.mem_singleton_self _)
    · exact .inr ⟨rfl, List.forall_mem_singleton.mpr hlt⟩
  · exact List.forall_mem_nil _
  · have hat : Ahead before start end_ start → Stands before start end_ (Scan.start s start end_) :=
      fun hahead => .at start hcurrent (hvisited ▸ List.mem_singleton_self _)
        (hvisited ▸ List.forall_mem_singleton.mpr (le_refl start)) hahead
    rcases hends with ⟨hnone, -⟩ | ⟨hstored, hend⟩
    · exact hat ⟨le_refl start, fun h => absurd hnone h⟩
    · rcases eq_or_lt_of_le (h.ordered hstored) with rfl | hlt
      · refine .atEnd (hcurrent.trans hend.symm) (.inr ?_)
        exact fun key hahead => absurd (hahead.2 hstored) (not_lt.mpr hahead.1)
      · exact hat ⟨le_refl start, fun _ => hlt⟩
  · exact .inr hends

/-! ### One act -/

/-- What has been stored at some time has been so with one more act done. -/
theorem Scanning.stored_extend (h : Scanning before start end_ acts t) (act : Act) :
    ∀ k ∈ t.visited, ∃ value, StoredAtTimes before (acts ++ [act]) k value := by
  intro k hk
  obtain ⟨value, hvalue⟩ := h.stored k hk
  exact ⟨value, hvalue.extend act⟩

/-- What has been shown right remains right. -/
theorem Scanning.shown_extend (h : Scanning before start end_ acts t) (act : Act)
    (more : List Bytes) :
    ∀ x ∈ t.shown, ShownRight before end_ (acts ++ [act]) (t.visited ++ more) x :=
  fun x hx => (h.shown x hx).extend act more

/-- A call of the database leaves what has been come to and shown as it is. -/
theorem Scanning.call (h : Scanning before start end_ acts t) (call : Call) {session : Session}
    (hmode : t.session.db.m_useSkipList = false) :
    Scanning before start end_ (acts ++ [.call call])
      { t with session, iterator := t.iterator.after t.session.db call } := by
  refine ⟨h.ascending, h.range, h.stored_extend _,
    fun key hahead hstored => h.passed key hahead hstored.front, ?_, ?_, ?_⟩
  · have hshown := h.shown_extend (.call call) []
    rwa [List.append_nil] at hshown
  · rcases after_eq t.session.db t.iterator call hmode with ⟨hsame, -⟩ | ⟨key, -, herase⟩
    · exact h.stands.congr hsame rfl rfl
    · rw [herase]
      cases h.stands with
      | broken h => exact .broken (Position.erase_eq_erased.mpr (.inl h))
      | atEnd h hmore => exact .atEnd (by simp only [h]) hmore
      | «at» k h hread hlast hahead =>
          by_cases hk : k = key
          · exact .broken (Position.erase_eq_erased.mpr (.inr (hk ▸ h)))
          · exact .at k (Position.erase_eq_element.mpr ⟨h, hk⟩) hread hlast hahead
  · rcases after_eq t.session.db t.iterator call hmode with ⟨hsame, -⟩ | ⟨key, -, herase⟩
    · rw [hsame]
      exact h.ends
    · rw [herase]
      rcases h.ends with herased | ⟨hnone, hpast⟩ | ⟨hne, hend⟩
      · exact .inl (Position.erase_eq_erased.mpr (.inl herased))
      · exact .inr (.inl ⟨hnone, Position.erase_eq_pastEnd.mpr hpast⟩)
      · by_cases hk : end_ = key
        · exact .inl (Position.erase_eq_erased.mpr (.inr (hk ▸ hend)))
        · exact .inr (.inr ⟨hne, Position.erase_eq_element.mpr ⟨hend, hk⟩⟩)

/-- Where the iterator stands at a key, that is one that can be read. -/
theorem Scanning.readAt (h : Scanning before start end_ acts t)
    (hk : t.iterator.m_current = .element key) : ReadAt before end_ t.visited key := by
  cases h.stands with
  | broken herased => cases hk.symm.trans herased
  | atEnd hsame _ =>
      rcases h.ends with herased | ⟨-, hpast⟩ | ⟨hne, hend⟩
      · cases hk.symm.trans (hsame.trans herased)
      · cases hk.symm.trans (hsame.trans hpast)
      · exact .inr ⟨Position.element.inj (hk.symm.trans (hsame.trans hend)), hne⟩
  | «at» key' hk' hread _ _ =>
      obtain rfl := Position.element.inj (hk.symm.trans hk')
      exact .inl hread

/-- What has been shown right is shown. -/
theorem Scanning.shows (h : Scanning before start end_ acts t) (act : Act) {x : Shown}
    (hx : ShownRight before end_ (acts ++ [act]) t.visited x) :
    Scanning before start end_ (acts ++ [act]) { t with shown := t.shown ++ [x] } := by
  refine ⟨h.ascending, h.range, h.stored_extend act,
    fun key hahead hstored => h.passed key hahead hstored.front, ?_, h.stands.congr rfl rfl rfl,
    h.ends⟩
  have hshown := h.shown_extend act []
  rw [List.append_nil] at hshown
  exact List.forall_mem_append.mpr ⟨hshown, List.forall_mem_singleton.mpr hx⟩

/-- The end has been come to. -/
theorem Scanning.stop (h : Scanning before start end_ acts t) {iterator : OpenIterator}
    (hend : iterator.m_end = t.iterator.m_end) (hsame : iterator.m_current = iterator.m_end)
    (hall : ∀ key, Ahead before start end_ key → StoredThroughout before acts key →
      key ∈ t.visited) :
    Scanning before start end_ (acts ++ [.next])
      { t with iterator, shown := t.shown ++ [.more false], more := false } := by
  obtain ⟨hascending, hrange, hstored, -, hshown, -, -⟩ := h.shows .next (x := .more false) trivial
  refine ⟨hascending, hrange, hstored, ?_, hshown, .atEnd hsame (.inl rfl), ?_⟩
  · exact fun key hahead hthroughout => .inl (hall key hahead hthroughout.front)
  · rw [hend]
    exact h.ends

/-- The iterator has moved on to a key. -/
theorem Scanning.visit (h : Scanning before start end_ acts t) (hopen : Open before acts t)
    (hvisited : key ∈ t.visited) (hlast : ∀ k ∈ t.visited, k ≤ key) {k' : Bytes}
    (hahead : Ahead before start end_ k') (hlt : key < k')
    (hget : (t.session.db.m_keyValueStore.get? k').isSome)
    (hleast : ∀ k'', (t.session.db.m_keyValueStore.get? k'').isSome → key < k'' → k' ≤ k'') :
    Scanning before start end_ (acts ++ [.next]) { t with
      iterator := ⟨.element k', t.iterator.m_end⟩, visited := t.visited ++ [k'],
      shown := t.shown ++ [.more true], more := true } := by
  have hbelow : ∀ k ∈ t.visited, k < k' := fun k hk => lt_of_le_of_lt (hlast k hk) hlt
  constructor
  · refine List.pairwise_append.mpr ⟨h.ascending, List.pairwise_singleton _ _, ?_⟩
    intro k hk k'' hk''
    rw [List.mem_singleton.mp hk'']
    exact hbelow k hk
  · exact List.forall_mem_append.mpr ⟨h.range, List.forall_mem_singleton.mpr (.inr hahead)⟩
  · refine List.forall_mem_append.mpr ⟨h.stored_extend .next, List.forall_mem_singleton.mpr ?_⟩
    obtain ⟨value, hvalue⟩ := Option.isSome_iff_exists.mp hget
    rw [hopen.state.stored] at hvalue
    exact ⟨value, acts, List.prefix_append _ _, hvalue⟩
  · intro k hk hthroughout
    have hstored : (t.session.db.m_keyValueStore.get? k).isSome := by
      rw [hopen.state.stored]
      exact hthroughout acts (List.prefix_append _ _)
    rw [List.mem_append]
    rcases h.passed k hk hthroughout.front with hread | ⟨-, hbeyond⟩
    · exact .inl (.inl hread)
    · rcases eq_or_lt_of_le (hleast k hstored (hbeyond key hvisited)) with rfl | hlt'
      · exact .inl (.inr (List.mem_singleton_self _))
      · exact .inr ⟨rfl, List.forall_mem_append.mpr ⟨hbeyond, List.forall_mem_singleton.mpr hlt'⟩⟩
  · exact List.forall_mem_append.mpr
      ⟨h.shown_extend .next [k'], List.forall_mem_singleton.mpr trivial⟩
  · refine .at k' rfl (List.mem_append_right _ (List.mem_singleton_self _)) ?_ hahead
    exact List.forall_mem_append.mpr ⟨fun k hk => le_of_lt (hbelow k hk),
      List.forall_mem_singleton.mpr (le_refl k')⟩
  · exact h.ends

/-- **One `Next`**: the iterator comes to the next key of the range, or to its end. -/
theorem Scanning.next (h : Scanning before start end_ acts t) (hopen : Open before acts t)
    (hright : ¬ Faulty t.iterator .next) :
    ∃ t', t.next = .ok t' ∧ Scanning before start end_ (acts ++ [.next]) t' := by
  obtain ⟨hcurrent, hend⟩ := not_or.mp (not_or.mp hright).1
  have hends := h.ends.resolve_left hend
  have hstored : ∀ key, StoredThroughout before acts key →
      (t.session.db.m_keyValueStore.get? key).isSome := by
    intro key hkey
    rw [hopen.state.stored]
    exact hkey acts (List.prefix_refl _)
  have hendStored : t.iterator.m_end = .element end_ →
      (t.session.db.m_keyValueStore.get? end_).isSome := (hopen.ends hend).stored end_
  rcases hopen.next hright with ⟨hsame, hnext⟩ | ⟨k, p, hk, hne, hfollows, hmoved⟩
  · refine ⟨_, hnext, h.stop rfl hsame ?_⟩
    intro key hahead hthroughout
    cases h.stands with
    | broken herased => exact absurd herased hcurrent
    | atEnd _ hmore =>
        rcases hmore with hmore | hnone
        · rcases h.passed key hahead hthroughout with hvisited | ⟨htrue, -⟩
          · exact hvisited
          · rw [hmore] at htrue
            cases htrue
        · exact absurd hahead (hnone key)
    | «at» k hk hvisited hlast hahead' =>
        rcases hends with ⟨-, hpast⟩ | ⟨hne, hend'⟩
        · cases hk.symm.trans (hsame.trans hpast)
        · obtain rfl := Position.element.inj (hk.symm.trans (hsame.trans hend'))
          exact absurd (hahead'.2 hne) (lt_irrefl _)
  · cases h.stands with
    | broken herased => exact absurd herased hcurrent
    | atEnd hsame _ => exact absurd (hsame.symm.trans hk) hne
    | «at» k₁ hk₁ hvisited hlast hahead =>
        obtain rfl := Position.element.inj (hk.symm.trans hk₁)
        rcases hmoved with ⟨hstop, hnext⟩ | ⟨hgo, hnext⟩
        · -- all keys of the range that are left would be behind `k`, and in front of the end
          refine ⟨_, hnext, h.stop rfl hstop ?_⟩
          intro key hkey hthroughout
          rcases h.passed key hkey hthroughout with hread | ⟨-, hbeyond⟩
          · exact hread
          · have hlt := hbeyond k hvisited
            rcases hfollows with ⟨-, hnone⟩ | ⟨k', helement, -, -, hleast⟩
            · exact absurd hlt (not_lt.mpr (hnone key (hstored key hthroughout)))
            · rcases hends with ⟨-, hpast⟩ | ⟨hne', hend'⟩
              · cases hpast.symm.trans (hstop.symm.trans helement)
              · obtain rfl := Position.element.inj (hend'.symm.trans (hstop.symm.trans helement))
                exact absurd (hkey.2 hne') (not_lt.mpr (hleast key (hstored key hthroughout) hlt))
        · rcases hfollows with ⟨rfl, hnone⟩ | ⟨k', rfl, hlt, hget, hleast⟩
          · rcases hends with ⟨-, hpast⟩ | ⟨hne', hend'⟩
            · exact absurd hpast.symm hgo
            · exact absurd (hahead.2 hne') (not_lt.mpr (hnone end_ (hendStored hend')))
          · have hahead' : Ahead before start end_ k' := by
              refine ⟨le_trans hahead.1 (le_of_lt hlt), ?_⟩
              intro hne'
              rcases hends with ⟨hnone, -⟩ | ⟨-, hend'⟩
              · exact absurd hnone hne'
              · refine lt_of_le_of_ne (hleast end_ (hendStored hend') (hahead.2 hne')) ?_
                rintro rfl
                exact hgo hend'.symm
            exact ⟨_, hnext, h.visit hopen hvisited hlast hahead' hlt hget hleast⟩

/-- **One act** where it is no error keeps to the range. -/
theorem Scanning.step (h : Scanning before start end_ acts t) (hopen : Open before acts t)
    (hright : ¬ Faulty t.iterator act) (hact : Ends (fun fuel => t.act fuel act) (.ok t')) :
    Scanning before start end_ (acts ++ [act]) t' := by
  cases act with
  | call call =>
      obtain ⟨session, hends, -⟩ := hopen.call call
      obtain rfl := Except.ok.inj (hact.unique hends)
      exact h.call call hopen.state.mode
  | next =>
      obtain ⟨t₁, hnext, hscanning⟩ := h.next hopen hright
      obtain rfl := Except.ok.inj (hact.unique (ends_done fun _ => congrArg done hnext))
      exact hscanning
  | key =>
      obtain ⟨k, hk⟩ := Position.exists_element_iff.mpr hright
      obtain ⟨-, -, hkey, -⟩ := hopen.reads hk
      obtain rfl := Except.ok.inj (hact.unique (ends_done fun _ => congrArg done hkey))
      exact h.shows .key (h.readAt hk)
  | value =>
      obtain ⟨k, hk⟩ := Position.exists_element_iff.mpr hright
      obtain ⟨v, hlatest, -, hvalue⟩ := hopen.reads hk
      obtain rfl := Except.ok.inj (hact.unique (ends_done fun _ => congrArg done hvalue))
      exact h.shows .value ⟨k, h.readAt hk, acts, List.prefix_append _ _, hlatest⟩

theorem Opens.scanning (h : Opens before s start end_)
    (hrun : Ends (fun fuel => Scan.run fuel s start end_ acts) (.ok t)) :
    Scanning before start end_ acts t := by
  induction acts using List.reverseRecOn generalizing t with
  | nil =>
      obtain rfl := Except.ok.inj (hrun.unique run_nil)
      exact Scanning.opened h
  | append_singleton past act ih =>
      obtain ⟨t₁, hpast, hopen, hright, hact, -⟩ := run_last h.state hrun
      exact (ih hpast).step hopen hright hact

end

/-- **What a scan comes to**, whatever is called in its course: keys in ascending order, from the
start on and in front of the end if that was stored, each of which is stored at some time; and once
`Next` has returned false, every key from the start up to the end that has been stored all along
(and those from the end on, if that was not stored).  `Key` and `Value` return these keys, or the
end, and values that they have had. -/
theorem scan_visits {before : List Call} {s : Session} {start end_ : Bytes}
    (h : Opens before s start end_) {acts : List Act} {t : Scan}
    (hrun : Ends (fun fuel => Scan.run fuel s start end_ acts) (.ok t)) :
    t.visited.Pairwise (· < ·) ∧
    (∀ key ∈ t.visited, start ≤ key ∧ (latest before end_ ≠ none → key < end_ ∨ key = start) ∧
      ∃ value, StoredAtTimes before acts key value) ∧
    (t.more = false → ∀ key, start ≤ key → (key < end_ ∨ latest before end_ = none) →
      StoredThroughout before acts key → key ∈ t.visited) ∧
    (∀ key, Shown.key key ∈ t.shown → key ∈ t.visited ∨ (key = end_ ∧ latest before end_ ≠ none)) ∧
    (∀ value, Shown.value value ∈ t.shown → ∃ key,
      (key ∈ t.visited ∨ (key = end_ ∧ latest before end_ ≠ none)) ∧
        StoredAtTimes before acts key value) := by
  have hscanning := h.scanning hrun
  refine ⟨hscanning.ascending, ?_, ?_, fun key hkey => hscanning.shown _ hkey,
    fun value hvalue => hscanning.shown _ hvalue⟩
  · intro key hkey
    have hstored := hscanning.stored key hkey
    rcases hscanning.range key hkey with rfl | hahead
    · exact ⟨le_refl key, fun _ => .inr rfl, hstored⟩
    · exact ⟨hahead.1, fun hne => .inl (hahead.2 hne), hstored⟩
  · intro hmore key hstart hend hthroughout
    have hahead : Ahead before start end_ key :=
      ⟨hstart, fun hne => hend.resolve_right hne⟩
    rcases hscanning.passed key hahead hthroughout with hvisited | ⟨htrue, -⟩
    · exact hvisited
    · rw [hmore] at htrue
      cases htrue

theorem opens_twoKeys : Opens putTwoKeys twoKeysSession [97] [99] :=
  ⟨⟨_, twoKeysSession_reached⟩, by decide, by decide⟩

/-- In front of the iterator `"aa"` is put, and behind it `"a"` deleted. -/
def scanActs : List Act :=
  [.key, .call (.Put [97, 97] [51]), .next, .value, .call (.Delete [97]), .next, .key, .next]

/-- `"b"` is there all along. -/
theorem scan_visits_twoKeys : ∃ t,
    Ends (fun fuel => Scan.run fuel twoKeysSession [97] [99] scanActs) (.ok t) ∧
      t.more = false ∧ ([98] : Bytes) ∈ t.visited := by
  have hrun : Ends (fun fuel => Scan.run fuel twoKeysSession [97] [99] scanActs) (.ok _) :=
    (Ends.const _).congr fun _ => rfl
  have hinits : ∀ past ∈ scanActs.inits, (latest (putTwoKeys ++ callsOf past) [98]).isSome := by
    decide
  obtain ⟨-, -, hall, -⟩ := scan_visits opens_twoKeys hrun
  exact ⟨_, hrun, rfl, hall rfl [98] (by decide) (.inl (by decide))
    fun past hpast => hinits past ((List.mem_inits _ _).mpr hpast)⟩

end Nyctomek.Level2DB
