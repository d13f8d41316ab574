/-
# `Level2DB.RangeScan` — which ranges a range scan returns

`RangeScan` locates both ends with `find`, so a key that is not stored becomes
the position past the end of the map; `Next` returns false as it arrives at
`m_end`, so what stands there is never read.  The scan is right in two cases: there
is nothing to read, or the start is stored and the end is the start or lies
beyond the last key (`rangeScan_exact_iff`).  From one stored key to another it is safe
exactly if the second one is not the smaller (`rangeScan_safe_iff`).
-/
import Nyctomek.Level2DB.Modes

namespace Nyctomek.Level2DB

open Prog SkipList

/-! ## Walking an iterator -/

section
variable {p : Bytes × Bytes} {xs E acc : List (Bytes × Bytes)}

theorem cons_append_ne (xs : List (Bytes × Bytes)) : p :: (xs ++ E) ≠ E := fun h => by
  have hlen := congrArg List.length h
  simp at hlen
  omega

/-- At its end an iterator does not move. -/
theorem next_end : Iterator.next ⟨E, E⟩ = .ok (false, ⟨E, E⟩) := by
  simp [Iterator.next]

/-- One pair before its end it moves there, and says so. -/
theorem next_last : Iterator.next ⟨p :: E, E⟩ = .ok (false, ⟨E, E⟩) := by
  have hne : p :: E ≠ E := cons_append_ne []
  rw [Iterator.next, if_neg hne]
  exact if_pos rfl

/-- Further away it moves to the next pair. -/
theorem next_again {q : Bytes × Bytes} :
    Iterator.next ⟨p :: q :: (xs ++ E), E⟩ = .ok (true, ⟨q :: (xs ++ E), E⟩) := by
  have hne : p :: q :: (xs ++ E) ≠ E := cons_append_ne (q :: xs)
  have hne' : q :: (xs ++ E) ≠ E := cons_append_ne xs
  rw [Iterator.next, if_neg hne]
  exact if_neg hne'

/-- Along the pairs `xs` before its end the iterator passes through them all. -/
theorem scan_walk : Ends (fun fuel => loop Iterator.scanTurn fuel (⟨p :: (xs ++ E), E⟩, acc))
    (.ok (acc ++ xs)) := by
  induction xs generalizing p acc with
  | nil =>
      have hturn : Iterator.scanTurn (⟨p :: E, E⟩, acc) = .ok (.stop acc) := by
        simp only [Iterator.scanTurn, next_last]
        rfl
      simpa using Ends.loop_stop hturn
  | cons q xs ih =>
      have hturn : Iterator.scanTurn (⟨p :: q :: (xs ++ E), E⟩, acc)
          = .ok (.again (⟨q :: (xs ++ E), E⟩, acc ++ [q])) := by
        simp only [Iterator.scanTurn, next_again]
        rfl
      refine Ends.of_turns (Turns.single hturn) ?_
      have ih := @ih q (acc ++ [q])
      simpa using ih

theorem read_cons : Iterator.read ⟨p :: xs, E⟩ = .ok p := rfl

/-- A scan reads the pairs from its start up to, but not including, its end. -/
theorem scan_upTo : Ends (fun fuel => Iterator.scan fuel true ⟨p :: (xs ++ E), E⟩)
    (.ok (p :: xs)) := by
  simp only [Iterator.scan, if_true, read_cons, lift_eq_done, done_ok_bind]
  exact scan_walk

theorem scanTurn_end : Iterator.scanTurn (⟨E, E⟩, acc) = .ok (.stop acc) := by
  simp only [Iterator.scanTurn, next_end]
  rfl

/-- If it starts at its end, it reads that pair. -/
theorem scan_single : Ends (fun fuel => Iterator.scan fuel true ⟨p :: E, p :: E⟩)
    (.ok [p]) := by
  simp only [Iterator.scan, if_true, read_cons, lift_eq_done, done_ok_bind]
  exact Ends.loop_stop scanTurn_end

theorem scan_nothing : Ends (fun fuel => Iterator.scan fuel false ⟨E, E⟩) (.ok []) := by
  simp only [Iterator.scan, Bool.false_eq_true, if_false]
  exact Ends.loop_stop scanTurn_end

/-- Past the end of the map there is nothing to read. -/
theorem scan_pastEnd : Ends (fun fuel => Iterator.scan fuel true ⟨[], E⟩)
    (.error .endIterator) :=
  Ends.const _

end

/-! ## The ranges returned -/

/-- `Get` returns `value` for `key`. -/
def Stored (db : Database) (key value : Bytes) : Prop :=
  Ends (fun fuel => db.get fuel key) (.ok (.inr value))

/-- `pairs` are the stored pairs of the range, each once, in ascending
order. -/
def InRange (db : Database) (start end_ : Bytes) (pairs : List (Bytes × Bytes)) : Prop :=
  (pairs.Pairwise fun p q => p.1 < q.1) ∧
    ∀ key value, (key, value) ∈ pairs ↔ (start ≤ key ∧ key ≤ end_) ∧ Stored db key value

/-- The scan of a range, read from its initial position if there is anything to
read, gives the range. -/
def ScansRange (db : Database) (start end_ : Bytes) : Prop :=
  ∃ pairs, InRange db start end_ pairs ∧
    Ends (fun fuel => (db.rangeScan start end_).scan fuel (!pairs.isEmpty)) (.ok pairs)

/-- `Get` in map mode. -/
theorem MapState.stored_latest {past : List Call} {s : Session} (h : MapState past s)
    (key value : Bytes) : Stored s.db key value ↔ latest past key = some value := by
  have hget : Ends (fun fuel => s.db.get fuel key) (.ok (getReply (latest past key))) :=
    (Ends.const _).congr fun fuel => h.get_eq fuel key
  constructor
  · intro hstored
    exact getReply_inj (Except.ok.inj (hget.unique hstored))
  · intro hlatest
    rw [hlatest] at hget
    exact hget

theorem MapState.stored_iff {past : List Call} {s : Session} (h : MapState past s)
    (key value : Bytes) :
    Stored s.db key value ↔ (key, value) ∈ s.db.m_keyValueStore.entries := by
  rw [h.stored_latest, ← h.stored, SortedMap.get?_eq_some]

/-- An empty range is scanned if both ends are past the end of the map. -/
theorem scansRange_of_none {db : Database} {start end_ : Bytes}
    (hstart : db.m_keyValueStore.find start = []) (hend : db.m_keyValueStore.find end_ = [])
    (hnone : ∀ key value, Stored db key value → ¬ (start ≤ key ∧ key ≤ end_)) :
    ScansRange db start end_ := by
  refine ⟨[], ⟨List.Pairwise.nil, fun key value => ?_⟩, ?_⟩
  · exact ⟨fun h => absurd h (by simp), fun h => absurd h.1 (hnone key value h.2)⟩
  · rw [Database.rangeScan, hstart, hend]
    exact scan_nothing

/-- Unless the start is stored, only an empty range is scanned. -/
theorem ScansRange.none {db : Database} {start end_ : Bytes} (h : ScansRange db start end_)
    (hstart : db.m_keyValueStore.find start = []) (key value : Bytes)
    (hstored : Stored db key value) : ¬ (start ≤ key ∧ key ≤ end_) := by
  obtain ⟨pairs, ⟨-, hmem⟩, hends⟩ := h
  cases pairs with
  | nil => exact fun hrange => absurd ((hmem key value).mpr ⟨hrange, hstored⟩) (by simp)
  | cons p pairs =>
      rw [Database.rangeScan, hstart] at hends
      exact absurd (hends.unique scan_pastEnd) (by simp)

/-- If the start is stored, what the scan returns has to be the range. -/
theorem scansRange_iff {db : Database} {start end_ v : Bytes} (hle : start ≤ end_)
    (hv : Stored db start v) {result : List (Bytes × Bytes)}
    (hends : Ends (fun fuel => (db.rangeScan start end_).scan fuel true) (.ok result)) :
    ScansRange db start end_ ↔ InRange db start end_ result := by
  have hread : ∀ pairs, InRange db start end_ pairs → (!pairs.isEmpty) = true := by
    intro pairs hpairs
    have hmem := (hpairs.2 start v).mpr ⟨⟨le_refl start, hle⟩, hv⟩
    cases pairs with
    | nil => simp at hmem
    | cons p pairs => rfl
  constructor
  · rintro ⟨pairs, hrange, hpairs⟩
    rw [hread pairs hrange] at hpairs
    obtain rfl : result = pairs := Except.ok.inj (hends.unique hpairs)
    exact hrange
  · intro hresult
    refine ⟨result, hresult, ?_⟩
    rw [hread result hresult]
    exact hends

/-! ### The map -/

section
variable {past : List Call} {s : Session} {start end_ v : Bytes} {A B : List (Bytes × Bytes)}

/-- The scan of a range of one stored key. -/
theorem MapState.scan_point (h : MapState past s)
    (hsplit : s.db.m_keyValueStore.entries = A ++ (start, v) :: B) :
    ScansRange s.db start start := by
  have hv : (start, v) ∈ s.db.m_keyValueStore.entries := by simp [hsplit]
  have hfind : s.db.m_keyValueStore.find start = (start, v) :: B := SortedMap.find_of_split hsplit
  have hends : Ends (fun fuel => (s.db.rangeScan start start).scan fuel true) (.ok [(start, v)]) := by
    rw [Database.rangeScan, hfind]
    exact scan_single
  refine (scansRange_iff (le_refl start) ((h.stored_iff start v).mpr hv) hends).mpr
    ⟨List.pairwise_singleton _ _, fun key value => ?_⟩
  rw [h.stored_iff, ← SortedMap.get?_eq_some, List.mem_singleton, Prod.mk.injEq]
  constructor
  · rintro ⟨rfl, rfl⟩
    exact ⟨⟨le_refl _, le_refl _⟩, SortedMap.get?_of_mem hv⟩
  · rintro ⟨⟨hle, hge⟩, hget⟩
    obtain rfl : key = start := le_antisymm hge hle
    rw [SortedMap.get?_of_mem hv] at hget
    exact ⟨rfl, (Option.some.inj hget).symm⟩

/-- The scan of a range whose end is not stored goes on to the end of the map. -/
theorem MapState.scan_unstored (h : MapState past s) (hle : start ≤ end_)
    (hsplit : s.db.m_keyValueStore.entries = A ++ (start, v) :: B)
    (hend : ∀ p ∈ s.db.m_keyValueStore.entries, p.1 ≠ end_) :
    ScansRange s.db start end_ ↔ ∀ p ∈ s.db.m_keyValueStore.entries, p.1 < end_ := by
  have hv : (start, v) ∈ s.db.m_keyValueStore.entries := by simp [hsplit]
  have hfind : s.db.m_keyValueStore.find start = (start, v) :: (B ++ []) := by
    rw [List.append_nil]
    exact SortedMap.find_of_split hsplit
  have hends : Ends (fun fuel => (s.db.rangeScan start end_).scan fuel true)
      (.ok ((start, v) :: B)) := by
    rw [Database.rangeScan, hfind, SortedMap.find_eq_nil.mpr hend]
    exact scan_upTo
  rw [scansRange_iff hle ((h.stored_iff start v).mpr hv) hends]
  have hlow : ∀ p ∈ s.db.m_keyValueStore.entries, start ≤ p.1 ↔ p ∈ (start, v) :: B :=
    fun p hp => SortedMap.le_iff_of_split hsplit hp
  constructor
  · rintro ⟨-, hmem⟩ p hp
    rcases lt_or_ge p.1 start with hlt | hge
    · exact lt_of_lt_of_le hlt hle
    · exact lt_of_le_of_ne ((hmem p.1 p.2).mp ((hlow p hp).mp hge)).1.2 (hend p hp)
  · intro hlt
    have hsorted := s.db.m_keyValueStore.sorted
    rw [hsplit] at hsorted
    refine ⟨(List.pairwise_append.mp hsorted).2.1, ?_⟩
    intro key value
    rw [h.stored_iff]
    constructor
    · intro hkv
      have hp : (key, value) ∈ s.db.m_keyValueStore.entries := by
        rw [hsplit]
        exact List.mem_append_right A hkv
      exact ⟨⟨(hlow _ hp).mpr hkv, le_of_lt (hlt _ hp)⟩, hp⟩
    · rintro ⟨⟨hge, -⟩, hp⟩
      exact (hlow _ hp).mp hge

/-- The scan of a range with two stored ends leaves out its end. -/
theorem MapState.not_scan_stored (h : MapState past s) (hlt : start < end_)
    (hsplit : s.db.m_keyValueStore.entries = A ++ (start, v) :: B)
    {w : Bytes} (hw : (end_, w) ∈ s.db.m_keyValueStore.entries) :
    ¬ ScansRange s.db start end_ := by
  have hv : (start, v) ∈ s.db.m_keyValueStore.entries := by simp [hsplit]
  obtain ⟨hA, -⟩ := SortedMap.lt_of_split hsplit
  have hwB : (end_, w) ∈ B := by
    have hw' := hw
    rw [hsplit, List.mem_append, List.mem_cons, Prod.mk.injEq] at hw'
    rcases hw' with hwA | ⟨heq, -⟩ | hwB
    · exact absurd (hA _ hwA) (not_lt.mpr (le_of_lt hlt))
    · exact absurd heq (ne_of_gt hlt)
    · exact hwB
  obtain ⟨C, D, rfl⟩ := List.append_of_mem hwB
  have hsplit' : s.db.m_keyValueStore.entries = (A ++ (start, v) :: C) ++ (end_, w) :: D := by
    simpa using hsplit
  have hends : Ends (fun fuel => (s.db.rangeScan start end_).scan fuel true)
      (.ok ((start, v) :: C)) := by
    have hfind : s.db.m_keyValueStore.find end_ = (end_, w) :: D :=
      SortedMap.find_of_split hsplit'
    rw [Database.rangeScan, show s.db.m_keyValueStore.find start = _ from
      SortedMap.find_of_split hsplit, hfind]
    exact scan_upTo
  rw [scansRange_iff (le_of_lt hlt) ((h.stored_iff start v).mpr hv) hends]
  rintro ⟨-, hmem⟩
  have hC := (hmem end_ w).mpr ⟨⟨le_of_lt hlt, le_refl _⟩, (h.stored_iff end_ w).mpr hw⟩
  have hself := (SortedMap.lt_of_split hsplit').1 (end_, w) (List.mem_append_right A hC)
  exact absurd hself (lt_irrefl _)

/-- The ranges that are scanned right in map mode. -/
theorem MapState.scansRange_iff (h : MapState past s) (hle : start ≤ end_) :
    ScansRange s.db start end_ ↔
      (∀ key value, Stored s.db key value → ¬ (start ≤ key ∧ key ≤ end_)) ∨
      ((∃ value, Stored s.db start value) ∧
        (start = end_ ∨ ∀ key value, Stored s.db key value → key < end_)) := by
  by_cases hstart : ∃ v, Stored s.db start v
  · obtain ⟨v, hv⟩ := hstart
    obtain ⟨A, B, hsplit⟩ := List.append_of_mem ((h.stored_iff start v).mp hv)
    have hsome : ¬ ∀ key value, Stored s.db key value → ¬ (start ≤ key ∧ key ≤ end_) :=
      fun hnone => hnone start v hv ⟨le_refl start, hle⟩
    rcases eq_or_lt_of_le hle with rfl | hlt
    · exact iff_of_true (h.scan_point hsplit) (.inr ⟨⟨v, hv⟩, .inl rfl⟩)
    · by_cases hend : ∃ w, Stored s.db end_ w
      · obtain ⟨w, hw⟩ := hend
        refine iff_of_false (h.not_scan_stored hlt hsplit ((h.stored_iff end_ w).mp hw)) ?_
        rintro (hnone | ⟨-, heq | hbeyond⟩)
        · exact hsome hnone
        · exact absurd heq (ne_of_lt hlt)
        · exact absurd (hbeyond end_ w hw) (lt_irrefl _)
      · have hunstored : ∀ p ∈ s.db.m_keyValueStore.entries, p.1 ≠ end_ := by
          rintro ⟨key, w⟩ hp rfl
          exact hend ⟨w, (h.stored_iff key w).mpr hp⟩
        rw [h.scan_unstored hle hsplit hunstored]
        constructor
        · intro hbeyond
          exact .inr ⟨⟨v, hv⟩, .inr fun key value hkv =>
            hbeyond (key, value) ((h.stored_iff key value).mp hkv)⟩
        · rintro (hnone | ⟨-, heq | hbeyond⟩)
          · exact absurd hnone hsome
          · exact absurd heq (ne_of_lt hlt)
          · exact fun p hp => hbeyond p.1 p.2 ((h.stored_iff p.1 p.2).mpr hp)
  · have hfind : ∀ key, (¬ ∃ v, Stored s.db key v) → s.db.m_keyValueStore.find key = [] := by
      intro key hkey
      refine SortedMap.find_eq_nil.mpr ?_
      rintro ⟨key', v⟩ hp rfl
      exact hkey ⟨v, (h.stored_iff key' v).mpr hp⟩
    constructor
    · exact fun hscan => .inl (hscan.none (hfind start hstart))
    · rintro (hnone | ⟨hv, -⟩)
      · refine scansRange_of_none (hfind start hstart) (hfind end_ ?_) hnone
        exact fun ⟨w, hw⟩ => hnone end_ w hw ⟨hle, le_refl end_⟩
      · exact absurd hv hstart

end

/-! ### Either mode -/

/-- In skip-list mode the map is empty, and so is every range that is scanned right. -/
theorem SkipState.scansRange_iff {draws : Draws} {past : List Call} {s : Session}
    {c : Contents Bytes Bytes} (h : SkipState draws past s c) (start end_ : Bytes) :
    ScansRange s.db start end_ ↔
      ∀ key value, Stored s.db key value → ¬ (start ≤ key ∧ key ≤ end_) := by
  have hfind : ∀ key, s.db.m_keyValueStore.find key = [] := fun key => by
    rw [SortedMap.find, h.map, List.dropWhile_nil]
  exact ⟨fun hscan => hscan.none (hfind start), scansRange_of_none (hfind start) (hfind end_)⟩

/-- **Which ranges are scanned right.**  In a database reached by any run, the
scan from `start` to `end_` is right exactly if no key of the range is stored,
or if, in map mode, `start` is stored and `end_` is `start` or lies beyond every
stored key. -/
theorem rangeScan_exact_iff (useSkipList : Bool) (draws : Draws) (calls : List Call) (s : Session)
    (hs : Ends (fun fuel => (Session.start useSkipList draws).run fuel calls) (.ok s))
    {start end_ : Bytes} (hle : start ≤ end_) :
    ScansRange s.db start end_ ↔
      (∀ key value, Stored s.db key value → ¬ (start ≤ key ∧ key ≤ end_)) ∨
      (useSkipList = false ∧ (∃ value, Stored s.db start value) ∧
        (start = end_ ∨ ∀ key value, Stored s.db key value → key < end_)) := by
  cases useSkipList with
  | true =>
      obtain ⟨-, c, h⟩ := skipRun_ok hs
      rw [h.scansRange_iff]
      simp
  | false =>
      obtain ⟨s', hends, h⟩ := mapRun draws calls
      obtain rfl : s = s' := Except.ok.inj (hs.unique hends)
      rw [h.scansRange_iff hle]
      simp

/-- `Put("a", "1")`, `Put("b", "2")`. -/
def putTwoKeys : List Call := [.Put [97] [49], .Put [98] [50]]

/-- The scan from `"a"` to `"c"` returns both pairs. -/
theorem rangeScan_beyond : ∃ s, Ends (fun fuel =>
      (Session.start false fun _ => 0).run fuel putTwoKeys) (.ok s) ∧
    ScansRange s.db [97] [99] := by
  obtain ⟨s, hends, h⟩ := mapRun (fun _ => 0) putTwoKeys
  refine ⟨s, hends, (rangeScan_exact_iff false _ _ s hends (by decide)).mpr
    (.inr ⟨rfl, ⟨[49], (h.stored_latest _ _).mpr (by decide)⟩, .inr fun key value hkv => ?_⟩)⟩
  rw [h.stored_latest] at hkv
  by_cases hb : key = [98]
  · exact hb ▸ by decide
  · by_cases ha : key = [97]
    · exact ha ▸ by decide
    · simp [latest, latestStep, putTwoKeys, ha, hb] at hkv

/-- The scan from `"a"` to `"b"` leaves out the pair of `"b"`. -/
theorem rangeScan_misses_end : ∃ s, Ends (fun fuel =>
      (Session.start false fun _ => 0).run fuel putTwoKeys) (.ok s) ∧
    ¬ ScansRange s.db [97] [98] := by
  obtain ⟨s, hends, h⟩ := mapRun (fun _ => 0) putTwoKeys
  have hb : Stored s.db [98] [50] := (h.stored_latest _ _).mpr (by decide)
  refine ⟨s, hends, ?_⟩
  rw [h.scansRange_iff (by decide)]
  rintro (hnone | ⟨-, heq | hbeyond⟩)
  · exact hnone _ _ hb (by decide)
  · exact absurd heq (by decide)
  · exact absurd (hbeyond _ _ hb) (by decide)

/-! ## Safe iteration -/

/-- Calling `Next` until it returns false, and reading the position after each true one, ends
and never goes past the end of the map. -/
def SafeIteration (it : Iterator) : Prop :=
  ∃ pairs, Ends (fun fuel => loop Iterator.scanTurn fuel (it, [])) (.ok pairs)

/-- Behind its end an iterator runs into the end of the map. -/
theorem scan_behind {xs E acc : List (Bytes × Bytes)} (h : xs.length < E.length) :
    Ends (fun fuel => loop Iterator.scanTurn fuel (⟨xs, E⟩, acc)) (.error .endIterator) := by
  have hne : xs ≠ E := fun heq => Nat.ne_of_lt h (congrArg List.length heq)
  induction xs generalizing acc with
  | nil =>
      refine Ends.loop_error ?_
      simp only [Iterator.scanTurn, Iterator.next, if_neg hne, Iterator.increment]
      rfl
  | cons p xs ih =>
      have hlt : xs.length < E.length := Nat.lt_of_succ_lt h
      have hne' : xs ≠ E := fun heq => Nat.ne_of_lt hlt (congrArg List.length heq)
      have hnext : Iterator.next ⟨p :: xs, E⟩ = .ok (true, ⟨xs, E⟩) := by
        rw [Iterator.next, if_neg hne]
        exact if_neg hne'
      cases xs with
      | nil =>
          refine Ends.loop_error ?_
          simp only [Iterator.scanTurn, hnext]
          rfl
      | cons q xs =>
          have hturn : Iterator.scanTurn (⟨p :: q :: xs, E⟩, acc)
              = .ok (.again (⟨q :: xs, E⟩, acc ++ [q])) := by
            simp only [Iterator.scanTurn, hnext]
            rfl
          exact Ends.of_turns (Turns.single hturn) (ih hlt hne')

/-- Of two pairs of a map the one with the smaller key stands before the other. -/
theorem find_before {m : SortedMap Bytes Bytes} {p q : Bytes × Bytes} (hp : p ∈ m.entries)
    (hq : q ∈ m.entries) (hlt : p.1 < q.1) :
    ∃ C D, m.find p.1 = p :: (C ++ q :: D) ∧ m.find q.1 = q :: D := by
  obtain ⟨A, B, hsplit⟩ := List.append_of_mem hp
  have hqB : q ∈ p :: B := (SortedMap.le_iff_of_split hsplit hq).mp (le_of_lt hlt)
  rcases List.mem_cons.mp hqB with rfl | hqB
  · exact absurd hlt (lt_irrefl _)
  · obtain ⟨C, D, rfl⟩ := List.append_of_mem hqB
    have hsplit' : m.entries = (A ++ p :: C) ++ q :: D := by
      rw [hsplit, List.append_assoc, List.cons_append]
    exact ⟨C, D, SortedMap.find_of_split hsplit, SortedMap.find_of_split hsplit'⟩

/-- **Which iterations are safe.**  Between two stored keys of any map the iteration is safe
exactly if the start is not greater than the end. -/
theorem rangeScan_safe_iff (db : Database) (start end_ : Bytes × Bytes)
    (hstart : start ∈ db.m_keyValueStore.entries) (hend : end_ ∈ db.m_keyValueStore.entries) :
    SafeIteration (db.rangeScan start.1 end_.1) ↔ start.1 ≤ end_.1 := by
  rcases lt_trichotomy start.1 end_.1 with hlt | heq | hgt
  · obtain ⟨C, D, hfind, hfind'⟩ := find_before hstart hend hlt
    refine iff_of_true ⟨C, ?_⟩ (le_of_lt hlt)
    rw [Database.rangeScan, hfind, hfind']
    exact scan_walk
  · refine iff_of_true ⟨[], ?_⟩ (le_of_eq heq)
    rw [heq, Database.rangeScan]
    exact Ends.loop_stop scanTurn_end
  · obtain ⟨C, D, hfind, hfind'⟩ := find_before hend hstart hgt
    refine iff_of_false ?_ (not_le_of_gt hgt)
    rintro ⟨pairs, hends⟩
    rw [Database.rangeScan, hfind, hfind'] at hends
    have hshort : (start :: D).length < (end_ :: (C ++ start :: D)).length := by
      rw [List.length_cons, List.length_cons, List.length_append, List.length_cons]
      omega
    exact absurd (hends.unique (scan_behind hshort)) (by simp)

/-- `{"a": "1", "b": "2"}`. -/
def twoKeys : Database :=
  { Database.new false with m_keyValueStore := (SortedMap.empty.set [97] [49]).set [98] [50] }

theorem rangeScan_forward_safe : SafeIteration (twoKeys.rangeScan [97] [98]) :=
  (rangeScan_safe_iff twoKeys ([97], [49]) ([98], [50]) (by decide) (by decide)).mpr (by decide)

/-- From `"b"` to `"a"` the first `Next` returns true at the end of the map. -/
theorem rangeScan_backward_unsafe :
    ([98], [50]) ∈ twoKeys.m_keyValueStore.entries ∧ ([97], [49]) ∈ twoKeys.m_keyValueStore.entries ∧
      ¬ SafeIteration (twoKeys.rangeScan [98] [97]) := by
  refine ⟨by decide, by decide, ?_⟩
  rintro ⟨pairs, hends⟩
  have hpast : Ends (fun fuel => loop Iterator.scanTurn fuel (twoKeys.rangeScan [98] [97], []))
      (.error .endIterator) := Ends.loop_error (by decide)
  exact absurd (hends.unique hpast) (by simp)

end Nyctomek.Level2DB
