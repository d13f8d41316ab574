/-
# `Level2DB.Modes` — the two storage modes compared

The database promises the same behaviour whichever container it was built with.
The map keeps it.  The skip list keeps every pair ever put, and which of them a
`Get` sees depends on the levels drawn (`modes_agree_iff`); and every `Delete`
is undefined there, so deletions stick only in the runs that never delete a key that is
present (`deletes_stick_iff`), and to delete one that is absent is an error only in the map
(`delete_absent_iff`).
-/
import Nyctomek.Level2DB.Replies

namespace Nyctomek.Level2DB

open Prog SkipList

/-! ## `Get` and `Has` -/

/-- The value of the last `Put` of `key` in a run. -/
def lastPut (past : List Call) (key : Bytes) : Option Bytes :=
  past.reverse.findSome? fun
    | .Put key' value => if key' = key then some value else none
    | .Get _ | .Has _ | .Delete _ => none

/-- Both modes answer the run alike, and a `Get` returns the last value put. -/
def ModesAgree (draws : Draws) (calls : List Call) : Prop :=
  ∃ s s', Ends (fun fuel => (Session.start true draws).run fuel calls) (.ok s) ∧
    Ends (fun fuel => (Session.start false draws).run fuel calls) (.ok s') ∧
    s.replies = s'.replies ∧
    ∀ pre key post, calls = pre ++ .Get key :: post →
      s.replies[pre.length]? = some (.got (getReply (lastPut pre key)))

theorem latest_eq_lastPut {past : List Call} (hpast : DeleteFree past) (key : Bytes) :
    latest past key = lastPut past key := by
  induction past using List.reverseRecOn with
  | nil => rfl
  | append_singleton past call ih =>
      have ih := ih (hpast.of_subset (by simp))
      rw [latest_concat, ih, lastPut, lastPut, List.reverse_append, List.reverse_singleton,
        List.singleton_append, List.findSome?_cons]
      cases call with
      | Put key' value =>
          by_cases hk : key = key'
          · simp [latestStep, hk]
          · simp [latestStep, hk, Ne.symm hk]
      | Get _ | Has _ => rfl
      | Delete key' => exact absurd (by simp) (hpast key')

/-- The newest `Put` in the log is the last one of the run. -/
theorem newestFirst_head (draws : Draws) {past : List Call} (hpast : DeleteFree past)
    (key : Bytes) : (newestFirst draws past key).head?.map InsertCall.value = latest past key := by
  induction past using List.reverseRecOn with
  | nil => rfl
  | append_singleton past call ih =>
      have ih := ih (hpast.of_subset (by simp))
      rw [latest_concat]
      cases call with
      | Put key' value =>
          rw [newestFirst_put]
          by_cases hk : key' = key
          · simp [latestStep, hk]
          · rw [if_neg hk, ih]
            simp [latestStep, Ne.symm hk]
      | Get _ | Has _ =>
          rw [newestFirst, putLog_concat]
          exact ih
      | Delete key' => exact absurd (by simp) (hpast key')

/-- In either mode a key is there when it has been put. -/
theorem isSome_tallestPut (draws : Draws) {past : List Call} (hpast : DeleteFree past)
    (key : Bytes) : (tallestPut draws past key).isSome = (latest past key).isSome := by
  rw [← newestFirst_head draws hpast]
  cases hn : newestFirst draws past key with
  | nil =>
      rw [tallestPut_eq_none.mpr hn]
      rfl
  | cons r rs =>
      have hne : tallestPut draws past key ≠ none := fun h => by
        simp [tallestPut_eq_none.mp h] at hn
      simp [Option.isSome_iff_ne_none, hne]

/-- **When the two modes agree.**  They do on a run exactly when, at each of its
`Get`s, among the `Put`s of the key so far the last one with the greatest level
carries the same value as the last one. -/
theorem modes_agree_iff (draws : Draws) (calls : List Call) (hcalls : DeleteFree calls) :
    ModesAgree draws calls ↔ ∀ pre key post, calls = pre ++ .Get key :: post →
      (firstTallest InsertCall.level (newestFirst draws pre key)).map InsertCall.value
        = (newestFirst draws pre key).head?.map InsertCall.value := by
  obtain ⟨s, c, hskip, hs⟩ := skipRun draws calls hcalls
  obtain ⟨s', hmap, hs'⟩ := mapRun draws calls
  have hfree : ∀ {pre post : List Call}, calls = pre ++ post → DeleteFree pre :=
    fun heq => hcalls.of_subset (heq ▸ List.subset_append_left _ _)
  constructor
  · rintro ⟨t, t', ht, ht', hreplies, -⟩ pre key post heq
    obtain rfl : t = s := Except.ok.inj (ht.unique hskip)
    obtain rfl : t' = s' := Except.ok.inj (ht'.unique hmap)
    rw [hs.replies, hs'.replies, answers_eq_iff] at hreplies
    have hget := hreplies pre (.Get key) post heq
    simp only [reply, Reply.got.injEq] at hget
    exact (getReply_inj hget).trans (newestFirst_head draws (hfree heq) key).symm
  · intro hcond
    have hvalue : ∀ pre key post, calls = pre ++ .Get key :: post →
        tallestPut draws pre key = latest pre key := fun pre key post heq =>
      (hcond pre key post heq).trans (newestFirst_head draws (hfree heq) key)
    refine ⟨s, s', hskip, hmap, ?_, fun pre key post heq => ?_⟩
    · rw [hs.replies, hs'.replies, answers_eq_iff]
      intro pre call post heq
      cases call with
      | Put _ _ => rfl
      | Get key => simp only [reply, hvalue pre key post heq]
      | Has key => simp only [reply, isSome_tallestPut draws (hfree heq)]
      | Delete key => exact absurd (heq ▸ by simp) (hcalls key)
    · rw [hs.replies, heq, answers_getElem?, reply, hvalue pre key post heq,
        latest_eq_lastPut (hfree heq)]

/-- The draws 1, 0, 0, …: the first node gets level 2, the second level 1. -/
def tallThenLow : Draws := fun n => if n = 0 then 1 else 0

/-- `Put("a", "1")`, `Put("a", "2")`, `Get("a")`. -/
def putTwiceThenGet : List Call := [.Put [97] [49], .Put [97] [50], .Get [97]]

theorem putTwiceThenGet_deleteFree : DeleteFree putTwiceThenGet := by
  simp [DeleteFree, putTwiceThenGet]

/-- The older value stands taller, and the skip list returns it. -/
theorem modes_disagree : DeleteFree putTwiceThenGet ∧ ¬ ModesAgree tallThenLow putTwiceThenGet := by
  refine ⟨putTwiceThenGet_deleteFree, ?_⟩
  rintro ⟨t, t', ht, ht', hreplies, -⟩
  obtain ⟨s, c, hskip, hs⟩ := skipRun tallThenLow putTwiceThenGet putTwiceThenGet_deleteFree
  obtain ⟨s', hmap, hs'⟩ := mapRun tallThenLow putTwiceThenGet
  obtain rfl : t = s := Except.ok.inj (ht.unique hskip)
  obtain rfl : t' = s' := Except.ok.inj (ht'.unique hmap)
  rw [hs.replies, hs'.replies] at hreplies
  exact absurd hreplies (by decide)

/-- With level 1 for both nodes the newer value is found. -/
theorem modes_agree_level : ModesAgree (fun _ => 0) putTwiceThenGet ↔
    ∀ pre key post, putTwiceThenGet = pre ++ .Get key :: post →
      (firstTallest InsertCall.level (newestFirst (fun _ => 0) pre key)).map InsertCall.value
        = (newestFirst (fun _ => 0) pre key).head?.map InsertCall.value :=
  modes_agree_iff (fun _ => 0) putTwiceThenGet (by simp [DeleteFree, putTwiceThenGet])

/-! ## `Delete` -/

/-- Every `Delete` of a key that has been put, and not deleted since, keeps it away until it
is put again. -/
def DeletesStick (useSkipList : Bool) (draws : Draws) (calls : List Call) : Prop :=
  ∀ pre key mid post, calls = pre ++ .Delete key :: (mid ++ post) →
    (∀ value, Call.Put key value ∉ mid) → latest pre key ≠ none →
    ∃ s, Ends (fun fuel => (Session.start useSkipList draws).run fuel (pre ++ .Delete key :: mid))
        (.ok s) ∧
      Ends (fun fuel => s.db.has fuel key) (.ok false) ∧
      Ends (fun fuel => s.db.get fuel key) (.ok (.inl .KEY_NOT_FOUND))

theorem latest_of_not_put {past mid : List Call} {key : Bytes} (hpast : latest past key = none)
    (hmid : ∀ value, Call.Put key value ∉ mid) : latest (past ++ mid) key = none := by
  induction mid using List.reverseRecOn with
  | nil => simpa using hpast
  | append_singleton mid call ih =>
      have ih := ih fun value hv => hmid value (by simp [hv])
      rw [← List.append_assoc, latest_concat, ih]
      cases call with
      | Put key' value =>
          have hne : key ≠ key' := fun hk => hmid value (by simp [hk])
          simp [latestStep, hne]
      | Delete key' => simp [latestStep]
      | Get _ | Has _ => rfl

theorem newestFirst_eq_nil (draws : Draws) {past : List Call} (hpast : DeleteFree past)
    {key : Bytes} : tallestPut draws past key = none ↔ ∀ value, Call.Put key value ∉ past := by
  induction past using List.reverseRecOn with
  | nil => simp [tallestPut, newestFirst, putLog, firstTallest]
  | append_singleton past call ih =>
      have ih := ih (hpast.of_subset (by simp))
      rw [tallestPut_eq_none] at ih ⊢
      cases call with
      | Put key' value =>
          rw [newestFirst_put]
          by_cases hk : key' = key
          · subst hk
            rw [if_pos rfl]
            exact ⟨fun h => absurd h (by simp), fun h => absurd (by simp) (h value)⟩
          · rw [if_neg hk, ih]
            simp [Ne.symm hk]
      | Get _ | Has _ =>
          rw [newestFirst, putLog_concat, logCall, ← newestFirst, ih]
          simp
      | Delete key' => exact absurd (by simp) (hpast key')

/-- A run is without `Delete`s, or it has a first one. -/
theorem deleteFree_or_first (calls : List Call) :
    DeleteFree calls ∨ ∃ pre key post, calls = pre ++ .Delete key :: post ∧ DeleteFree pre := by
  induction calls with
  | nil => exact .inl fun key => by simp
  | cons call calls ih =>
      by_cases hcall : ∃ key, call = .Delete key
      · obtain ⟨key, rfl⟩ := hcall
        exact .inr ⟨[], key, calls, rfl, fun k => by simp⟩
      · rcases ih with hfree | ⟨pre, key, post, rfl, hpre⟩
        · refine .inl ?_
          intro key hmem
          rcases List.mem_cons.mp hmem with heq | hmem
          · exact hcall ⟨key, heq.symm⟩
          · exact hfree key hmem
        · refine .inr ⟨call :: pre, key, post, rfl, ?_⟩
          intro k hmem
          rcases List.mem_cons.mp hmem with heq | hmem
          · exact hcall ⟨k, heq.symm⟩
          · exact hpre k hmem

/-- A run in skip-list mode that has an outcome is one without `Delete`s. -/
theorem skipRun_ok {draws : Draws} {calls : List Call} {s : Session}
    (h : Ends (fun fuel => (Session.start true draws).run fuel calls) (.ok s)) :
    DeleteFree calls ∧ ∃ c, SkipState draws calls s c := by
  rcases deleteFree_or_first calls with hfree | ⟨pre, key, post, rfl, hpre⟩
  · obtain ⟨s', c, hends, hs⟩ := skipRun draws calls hfree
    obtain rfl : s = s' := Except.ok.inj (h.unique hends)
    exact ⟨hfree, c, hs⟩
  · obtain ⟨e, herr⟩ := skipRun_delete draws hpre key post
    exact absurd (h.unique herr) (by simp)

theorem deletes_stick_map (draws : Draws) (calls : List Call) :
    DeletesStick false draws calls := by
  rintro pre key mid post - hmid -
  obtain ⟨s, hends, hs⟩ := mapRun draws (pre ++ .Delete key :: mid)
  have hnone : latest (pre ++ .Delete key :: mid) key = none := by
    rw [← List.singleton_append, ← List.append_assoc]
    refine latest_of_not_put ?_ hmid
    simp [latest_concat, latestStep]
  have hhas : ∀ fuel, s.db.has fuel key = done (.ok false) := by
    intro fuel
    rw [hs.has_eq, hnone]
    rfl
  have hget : ∀ fuel, s.db.get fuel key = done (.ok (.inl .KEY_NOT_FOUND)) := by
    intro fuel
    rw [hs.get_eq, hnone]
    rfl
  exact ⟨s, hends, (Ends.const _).congr hhas, (Ends.const _).congr hget⟩

/-- In skip-list mode no `Delete` has an outcome, so that none may be of a key that is there. -/
theorem deletes_stick_skip_iff (draws : Draws) (calls : List Call) :
    DeletesStick true draws calls ↔
      ∀ pre key post, calls = pre ++ .Delete key :: post → latest pre key = none := by
  constructor
  · intro hstick pre key post heq
    by_contra hpresent
    obtain ⟨s, hends, -⟩ := hstick pre key [] post heq (by simp) hpresent
    exact (skipRun_ok hends).1 key (by simp)
  · intro hcond pre key mid post heq _ hpresent
    exact absurd (hcond pre key (mid ++ post) heq) hpresent

/-- **When deletions stick.**  In map mode always; in skip-list mode exactly in the runs that
delete no key that has been put, and not deleted since. -/
theorem deletes_stick_iff (useSkipList : Bool) (draws : Draws) (calls : List Call) :
    DeletesStick useSkipList draws calls ↔ useSkipList = false ∨
      ∀ pre key post, calls = pre ++ .Delete key :: post → latest pre key = none := by
  cases useSkipList with
  | false => exact ⟨fun _ => .inl rfl, fun _ => deletes_stick_map draws calls⟩
  | true =>
      rw [deletes_stick_skip_iff]
      simp

/-- `Put("a", "1")`, then `Delete("a")`, in skip-list mode. -/
theorem deletes_do_not_stick :
    ¬ DeletesStick true (fun _ => 0) [.Put [97] [49], .Delete [97]] := by
  intro hstick
  obtain ⟨s, hends, -⟩ := hstick [.Put [97] [49]] [97] [] [] rfl (by simp) (by decide)
  exact (skipRun_ok hends).1 [97] (by simp)

/-! ### Absent keys -/

/-- The calls that put some pairs. -/
def putAll (pairs : List (Bytes × Bytes)) : List Call := pairs.map fun p => .Put p.1 p.2

theorem putAll_deleteFree (pairs : List (Bytes × Bytes)) : DeleteFree (putAll pairs) := by
  intro key hmem
  obtain ⟨p, -, hp⟩ := List.mem_map.mp hmem
  cases hp

theorem put_notMem_putAll {pairs : List (Bytes × Bytes)} {key : Bytes}
    (hkey : ∀ p ∈ pairs, p.1 ≠ key) (value : Bytes) : Call.Put key value ∉ putAll pairs := by
  intro hmem
  obtain ⟨p, hp, heq⟩ := List.mem_map.mp hmem
  exact hkey p hp (Call.Put.inj heq).1

/-- In map mode an absent key is an error, and the map stays as it is. -/
theorem MapState.delete_absent {past : List Call} {s : Session} (h : MapState past s) {key : Bytes}
    (hkey : latest past key = none) :
    Ends (fun fuel => s.db.delete fuel key) (.ok (some .KEY_NOT_FOUND, s.db)) := by
  have hget : s.db.m_keyValueStore.get? key = none := (h.stored key).trans hkey
  refine (Ends.const _).congr ?_
  intro fuel
  rw [Database.delete, if_neg (by simp [h.mode])]
  simp only [hget, Option.isSome_none, Bool.false_eq_true, if_false, if_true,
    SortedMap.erase_of_get?_none hget]
  rfl

/-- In skip-list mode the end of `d_nodes` is erased. -/
theorem SkipState.delete_absent {draws : Draws} {past : List Call} {s : Session}
    {c : Contents Bytes Bytes} (h : SkipState draws past s c) {key : Bytes}
    (hkey : tallestPut draws past key = none) :
    Ends (fun fuel => s.db.delete fuel key) (.error .eraseAtEnd) := by
  have hlookup : lookup c key = none := (h.lookup_eq key).trans hkey
  simp only [Database.delete, h.mode, if_true]
  exact (remove_absent h.linked (lookup_eq_none_iff.mp hlookup)).bind_error

/-- **When deleting an absent key is an error.**  After any run of `Put`s it returns
`KEY_NOT_FOUND` and leaves the database as it was in map mode; in skip-list mode it never
does. -/
theorem delete_absent_iff (useSkipList : Bool) (draws : Draws) (pairs : List (Bytes × Bytes))
    (key : Bytes) (hkey : ∀ p ∈ pairs, p.1 ≠ key) :
    ∃ s, Ends (fun fuel => (Session.start useSkipList draws).run fuel (putAll pairs)) (.ok s) ∧
      (Ends (fun fuel => s.db.delete fuel key) (.ok (some .KEY_NOT_FOUND, s.db)) ↔
        useSkipList = false) := by
  have hnil : latest [] key = none := rfl
  have hnone : latest (putAll pairs) key = none := latest_of_not_put hnil (put_notMem_putAll hkey)
  cases useSkipList with
  | false =>
      obtain ⟨s, hends, hs⟩ := mapRun draws (putAll pairs)
      exact ⟨s, hends, iff_of_true (hs.delete_absent hnone) rfl⟩
  | true =>
      obtain ⟨s, c, hends, hs⟩ := skipRun draws (putAll pairs) (putAll_deleteFree pairs)
      have htallest := (newestFirst_eq_nil draws (putAll_deleteFree pairs)).mpr
        (put_notMem_putAll hkey)
      refine ⟨s, hends, iff_of_false ?_ (by simp)⟩
      intro hdelete
      exact absurd (hdelete.unique (hs.delete_absent htallest)) (by simp)

/-- `Delete("b")` after `Put("a", "1")`, in map mode. -/
theorem delete_absent_map :
    ∃ s, Ends (fun fuel => (Session.start false fun _ => 0).run fuel (putAll [([97], [49])])) (.ok s) ∧
      (Ends (fun fuel => s.db.delete fuel [98]) (.ok (some .KEY_NOT_FOUND, s.db)) ↔ false = false) :=
  delete_absent_iff false (fun _ => 0) [([97], [49])] [98] (by decide)

/-- The same in skip-list mode. -/
theorem delete_absent_skip :
    ∃ s, Ends (fun fuel => (Session.start true fun _ => 0).run fuel (putAll [([97], [49])])) (.ok s) ∧
      ¬ Ends (fun fuel => s.db.delete fuel [98]) (.ok (some .KEY_NOT_FOUND, s.db)) := by
  have hfree := putAll_deleteFree [([97], [49])]
  obtain ⟨s, c, hends, hs⟩ := skipRun (fun _ => 0) _ hfree
  refine ⟨s, hends, ?_⟩
  intro hdelete
  have htallest : tallestPut (fun _ => 0) (putAll [([97], [49])]) [98] = none := by decide
  exact absurd (hdelete.unique (hs.delete_absent htallest)) (by simp)

end Nyctomek.Level2DB
