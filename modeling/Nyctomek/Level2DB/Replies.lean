/-
# `Level2DB.Replies` — what each storage mode answers

A database is a service: its reply to a call depends on the calls before it.
Either mode's replies have the shape `reply lookup`, for a function `lookup`
that says which value a past has left under a key:

    map        `latest`          the last `Put`, unless a `Delete` came after it
    skip list  `tallestPut`      among the `Put`s of the key, the last of those
                                 whose node drew the greatest level

For the map this holds of every run; for the skip list of the runs without
`Delete`, since there every `Delete` is undefined (`skipRun_delete`).
-/
import Nyctomek.Level2DB.Basic
import Nyctomek.SkipList.Find
import Nyctomek.SkipList.Remove
import Nyctomek.Prog.Service

namespace Nyctomek.Level2DB

open Prog SkipList

/-! ## The specification -/

/-- `Get`'s reply for what is stored. -/
def getReply : Option Bytes → ErrorCode ⊕ Bytes
  | none => .inl .KEY_NOT_FOUND
  | some value => .inr value

theorem getReply_inj {v w : Option Bytes} (h : getReply v = getReply w) : v = w := by
  cases v <;> cases w <;> simp_all [getReply]

/-- The replies of a store whose contents after a past are given by `lookup`. -/
def reply (lookup : List Call → Bytes → Option Bytes) : Service Call Reply
  | _, .Put _ _ => .status none
  | past, .Get key => .got (getReply (lookup past key))
  | past, .Has key => .has (lookup past key).isSome
  | past, .Delete key => .status (if (lookup past key).isSome then none else some .KEY_NOT_FOUND)

/-- What one call does to the value under `key`. -/
def latestStep (key : Bytes) (stored : Option Bytes) : Call → Option Bytes
  | .Put key' value => if key = key' then some value else stored
  | .Delete key' => if key = key' then none else stored
  | .Get _ | .Has _ => stored

/-- The value of the last `Put` of `key`, if no `Delete` came after it. -/
def latest (past : List Call) (key : Bytes) : Option Bytes :=
  past.foldl (latestStep key) none

theorem latest_concat (past : List Call) (call : Call) (key : Bytes) :
    latest (past ++ [call]) key = latestStep key (latest past key) call := by
  simp [latest]

/-! ## The map -/

/-- The state of a session in map mode after some calls. -/
structure MapState (past : List Call) (s : Session) : Prop where
  mode : s.db.m_useSkipList = false
  stored : ∀ key, s.db.m_keyValueStore.get? key = latest past key
  replies : s.replies = answers (reply latest) past

theorem MapState.get_eq {past : List Call} {s : Session} (h : MapState past s)
    (fuel : Nat) (key : Bytes) :
    s.db.get fuel key = done (.ok (getReply (latest past key))) := by
  rw [← h.stored key, SortedMap.get?]
  simp only [Database.get, h.mode, Bool.false_eq_true, if_false]
  cases s.db.m_keyValueStore.find key <;> rfl

theorem MapState.has_eq {past : List Call} {s : Session} (h : MapState past s)
    (fuel : Nat) (key : Bytes) :
    s.db.has fuel key = done (.ok (latest past key).isSome) := by
  simp only [Database.has, h.mode, Bool.false_eq_true, if_false, h.stored]
  rfl

/-- A call that only reads leaves the map as it is. -/
theorem MapState.read {past : List Call} {s : Session} (h : MapState past s) {call : Call}
    (hlatest : ∀ key, latest (past ++ [call]) key = latest past key) :
    MapState (past ++ [call]) { s with replies := s.replies ++ [reply latest past call] } where
  mode := h.mode
  stored key := (h.stored key).trans (hlatest key).symm
  replies := by rw [answers_concat, ← h.replies]

/-- One call in map mode. -/
theorem MapState.call {past : List Call} {s : Session} (h : MapState past s) (call : Call) :
    ∃ s', Ends (fun fuel => s.call fuel call) (.ok s') ∧ MapState (past ++ [call]) s' := by
  have hreplies : s.replies ++ [reply latest past call]
      = answers (reply latest) (past ++ [call]) := by rw [answers_concat, h.replies]
  cases call with
  | Put key value =>
      refine ⟨⟨{ s.db with m_keyValueStore := s.db.m_keyValueStore.set key value }, s.draws,
        s.replies ++ [.status none]⟩, (Ends.const _).congr fun fuel => ?_, h.mode, fun k => ?_,
        hreplies⟩
      · simp only [Session.call, Database.put, h.mode, Bool.false_eq_true, if_false, pure_bind]
        rfl
      · rw [latest_concat, SortedMap.get?_set, h.stored]
        by_cases hk : k = key <;> simp [latestStep, hk]
  | Get key =>
      have hread : MapState (past ++ [.Get key]) _ := h.read fun k => latest_concat _ _ _
      refine ⟨_, (Ends.const _).congr ?_, hread⟩
      intro fuel
      simp only [Session.call, h.get_eq, done_ok_bind]
      rfl
  | Has key =>
      have hread : MapState (past ++ [.Has key]) _ := h.read fun k => latest_concat _ _ _
      refine ⟨_, (Ends.const _).congr ?_, hread⟩
      intro fuel
      simp only [Session.call, h.has_eq, done_ok_bind]
      rfl
  | Delete key =>
      refine ⟨{ s with
          db := { s.db with m_keyValueStore := s.db.m_keyValueStore.erase key }
          replies := s.replies ++ [.status (if (latest past key).isSome then none
            else some .KEY_NOT_FOUND)] },
        (Ends.const _).congr fun fuel => ?_, h.mode, fun k => ?_, hreplies⟩
      · simp only [Session.call, Database.delete, h.mode, Bool.false_eq_true, if_false, h.stored]
        cases latest past key <;> rfl
      · rw [latest_concat, SortedMap.get?_erase, h.stored]
        by_cases hk : k = key <;> simp [latestStep, hk]

/-- Every run in map mode ends and answers as the specification does. -/
theorem mapRun (draws : Draws) (calls : List Call) :
    ∃ s, Ends (fun fuel => (Session.start false draws).run fuel calls) (.ok s) ∧
      MapState calls s :=
  Ends.foldlM (I := MapState) ⟨rfl, fun _ => rfl, rfl⟩ calls
    fun _past call _ _ h => h.call call

/-! ## The skip list -/

/-- Log one call: the `Put`s made, with the levels they drew, and the draws left. -/
def logCall (log : List (InsertCall Bytes Bytes) × Draws) :
    Call → List (InsertCall Bytes Bytes) × Draws
  | .Put key value =>
      (log.1 ++ [⟨key, value, (drawLevel log.2).1⟩], (drawLevel log.2).2)
  | .Get _ | .Has _ | .Delete _ => log

/-- The log of a run. -/
def putLog (draws : Draws) (past : List Call) : List (InsertCall Bytes Bytes) × Draws :=
  past.foldl logCall ([], draws)

/-- The `Put`s of `key`, newest first. -/
def newestFirst (draws : Draws) (past : List Call) (key : Bytes) :
    List (InsertCall Bytes Bytes) :=
  ((putLog draws past).1.filter fun r => r.key = key).reverse

/-- Among the `Put`s of `key`, the last of those with the greatest level. -/
def tallestPut (draws : Draws) (past : List Call) (key : Bytes) : Option Bytes :=
  (firstTallest InsertCall.level (newestFirst draws past key)).map InsertCall.value

theorem putLog_concat (draws : Draws) (past : List Call) (call : Call) :
    putLog draws (past ++ [call]) = logCall (putLog draws past) call := by
  simp [putLog]

theorem newestFirst_put (draws : Draws) (past : List Call) (key value k : Bytes) :
    newestFirst draws (past ++ [.Put key value]) k =
      if key = k then ⟨key, value, (drawLevel (putLog draws past).2).1⟩ :: newestFirst draws past k
      else newestFirst draws past k := by
  by_cases hk : key = k <;> simp [newestFirst, putLog_concat, logCall, hk]

theorem tallestPut_eq_none {draws : Draws} {past : List Call} {key : Bytes} :
    tallestPut draws past key = none ↔ newestFirst draws past key = [] := by
  rw [tallestPut, Option.map_eq_none_iff, firstTallest_eq_none_iff]

/-- The state of a session in skip-list mode after some calls. -/
structure SkipState (draws : Draws) (past : List Call) (s : Session) (c : Contents Bytes Bytes) :
    Prop where
  mode : s.db.m_useSkipList = true
  map : s.db.m_keyValueStore.entries = []
  gen : s.db.m_skipListKVStore.d_levelGenerator = none
  linked : Linked s.db.m_skipListKVStore c
  puts : ∀ key, (carriers key c.entries).map Entry.call = newestFirst draws past key
  left : s.draws = (putLog draws past).2
  replies : s.replies = answers (reply (tallestPut draws)) past

section
variable {draws : Draws} {past : List Call} {s : Session} {c : Contents Bytes Bytes}

theorem SkipState.lookup_eq (h : SkipState draws past s c) (key : Bytes) :
    lookup c key = tallestPut draws past key := by
  rw [tallestPut, ← h.puts key, firstTallest_map, Option.map_map]
  rfl

theorem SkipState.find_ends (h : SkipState draws past s c) (key : Bytes) :
    Ends (fun fuel => s.db.m_skipListKVStore.find fuel key) (.ok (tallestPut draws past key)) :=
  h.lookup_eq key ▸ find_eq h.linked key

theorem SkipState.get_ends (h : SkipState draws past s c) (key : Bytes) :
    Ends (fun fuel => s.db.get fuel key) (.ok (getReply (tallestPut draws past key))) := by
  simp only [Database.get, h.mode, if_true]
  refine (h.find_ends key).bind ?_
  cases tallestPut draws past key <;> exact Ends.const _

theorem SkipState.has_ends (h : SkipState draws past s c) (key : Bytes) :
    Ends (fun fuel => s.db.has fuel key) (.ok (tallestPut draws past key).isSome) := by
  simp only [Database.has, h.mode, if_true]
  exact (h.find_ends key).bind (Ends.const _)

/-- The abstract list after a `Put`. -/
theorem SkipState.puts_put (h : SkipState draws past s c) {key value : Bytes} {p : Ptr}
    (hfresh : p ∉ headerPtr :: c.entries.map Entry.ptr) (k : Bytes) :
    (carriers k (c.insert ⟨p, key, value, (drawLevel s.draws).1⟩ hfresh
      (drawLevel_bounds s.draws)).entries).map Entry.call
      = newestFirst draws (past ++ [.Put key value]) k := by
  rw [newestFirst_put, ← h.puts k, ← h.left]
  show (carriers k (place _ c.entries)).map Entry.call = _
  rw [carriers_place]
  by_cases hk : key = k
  · simp only [hk, if_true, List.map_cons]
    rfl
  · simp only [hk, if_false]

/-- Unless it is a `Put`, a call leaves the list and the draws as they are. -/
theorem SkipState.read (h : SkipState draws past s c) {call : Call}
    (hput : ∀ key value, call ≠ .Put key value) :
    SkipState draws (past ++ [call])
      { s with replies := s.replies ++ [reply (tallestPut draws) past call] } c := by
  have hlog : putLog draws (past ++ [call]) = putLog draws past := by
    rw [putLog_concat]
    cases call with
    | Put key value => exact absurd rfl (hput key value)
    | Get _ | Has _ | Delete _ => rfl
  refine ⟨h.mode, h.map, h.gen, h.linked, ?_, ?_, ?_⟩
  · intro k
    rw [newestFirst, hlog]
    exact h.puts k
  · rw [hlog]
    exact h.left
  · rw [answers_concat, ← h.replies]

/-- One call in skip-list mode, other than a `Delete`. -/
theorem SkipState.call (h : SkipState draws past s c) (call : Call)
    (hcall : ∀ key, call ≠ .Delete key) :
    ∃ s', Ends (fun fuel => s.call fuel call) (.ok s') ∧
      ∃ c', SkipState draws (past ++ [call]) s' c' := by
  have hreplies : s.replies ++ [reply (tallestPut draws) past call]
      = answers (reply (tallestPut draws)) (past ++ [call]) := by rw [answers_concat, h.replies]
  cases call with
  | Put key value =>
      obtain ⟨l', hends, hlinked, hgen⟩ := insert_linked h.linked h.gen s.draws key value
      refine ⟨⟨{ s.db with m_skipListKVStore := l' }, (drawLevel s.draws).2,
        s.replies ++ [.status none]⟩, ?_, _, h.mode, h.map, hgen, hlinked,
        fun k => h.puts_put h.linked.fresh_notMem k, ?_, hreplies⟩
      · simp only [Session.call, Database.put, h.mode, if_true, bind_assoc, pure_bind]
        exact hends.bind (Ends.const _)
      · show (drawLevel s.draws).2 = _
        rw [putLog_concat, h.left]
        rfl
  | Get key =>
      have hread : SkipState draws (past ++ [.Get key]) _ c := h.read (by simp)
      exact ⟨_, (h.get_ends key).bind (Ends.const _), c, hread⟩
  | Has key =>
      have hread : SkipState draws (past ++ [.Has key]) _ c := h.read (by simp)
      exact ⟨_, (h.has_ends key).bind (Ends.const _), c, hread⟩
  | Delete key => exact absurd rfl (hcall key)

end

/-- No call deletes. -/
def DeleteFree (calls : List Call) : Prop := ∀ key, Call.Delete key ∉ calls

theorem DeleteFree.of_subset {calls calls' : List Call} (h : DeleteFree calls)
    (hsub : calls' ⊆ calls) : DeleteFree calls' := fun key hmem => h key (hsub hmem)

/-- Every run in skip-list mode without a `Delete` ends; its replies go by the
tallest `Put`. -/
theorem skipRun (draws : Draws) (calls : List Call) (hcalls : DeleteFree calls) :
    ∃ s c, Ends (fun fuel => (Session.start true draws).run fuel calls) (.ok s) ∧
      SkipState draws calls s c := by
  have hstart : SkipState draws [] (Session.start true draws) Contents.empty :=
    ⟨rfl, rfl, rfl, new_linked none, fun _ => rfl, rfl, rfl⟩
  obtain ⟨s, hends, c, hs⟩ := Ends.foldlM (I := fun past s => ∃ c, SkipState draws past s c)
    ⟨Contents.empty, hstart⟩ calls fun past call hpast s ⟨c, h⟩ =>
      h.call call fun key hkey => hcalls key (hpast.subset (by simp [hkey]))
  exact ⟨s, c, hends, hs⟩

/-- A `Delete` in skip-list mode has no defined outcome. -/
theorem SkipState.delete {draws : Draws} {past : List Call} {s : Session}
    {c : Contents Bytes Bytes} (h : SkipState draws past s c) (key : Bytes) :
    ∃ e, Ends (fun fuel => s.call fuel (.Delete key)) (.error e) := by
  have hremove : ∃ e, Ends (fun fuel => s.db.m_skipListKVStore.remove fuel key) (.error e) := by
    by_cases hkey : ∃ e ∈ c.entries, e.key = key
    · obtain ⟨e, he, hkey⟩ := hkey
      exact ⟨_, remove_present h.linked he hkey⟩
    · exact ⟨_, remove_absent h.linked fun e he heq => hkey ⟨e, he, heq⟩⟩
  obtain ⟨e, hends⟩ := hremove
  refine ⟨e, ?_⟩
  simp only [Session.call, Database.delete, h.mode, if_true, bind_assoc]
  exact hends.bind_error

/-- So a run in skip-list mode has none either, from its first `Delete` on. -/
theorem skipRun_delete (draws : Draws) {pre : List Call} (hpre : DeleteFree pre) (key : Bytes)
    (post : List Call) :
    ∃ e, Ends (fun fuel => (Session.start true draws).run fuel (pre ++ .Delete key :: post))
      (.error e) := by
  obtain ⟨s, c, hends, hs⟩ := skipRun draws pre hpre
  obtain ⟨e, hdelete⟩ := hs.delete key
  refine ⟨e, Ends.congr (fun fuel => ?_) (hends.bind
    (g := fun fuel s => s.run fuel (.Delete key :: post)) ?_)⟩
  · simp only [Session.run, List.foldlM_append]
  · simp only [Session.run, List.foldlM_cons]
    exact hdelete.bind_error

end Nyctomek.Level2DB
