/-
# `SkipList.Remove` — the walk back up starts one level too low

The descent of `remove` leaves its loop with `level` at 0.  The walk back up
starts from that value, and not from 1 as the comment above it says, so its
first turn computes `levelIndex = 0 - 1` in `size_t` and uses `2⁶⁴ - 1` as an
index into `previousNodes`.
-/
import Nyctomek.SkipList.Insert

namespace Nyctomek

open Prog SkipList

variable {Key Value : Type} [LinearOrder Key]
variable {l : SkipList Key Value} {c : Contents Key Value} {key : Key}

/-! ## The node that `remove` looks at -/

/-- The first node that is not before the place of `key`. -/
theorem Linked.next_predAt (h : Linked l c) (key : Key) :
    nextOf l.heap 0 (predAt key c.entries 0) = (lane 0 (behind key c.entries)).head? := by
  have hchain := h.chain 0 (by decide)
  rw [← before_append_behind key c.entries, lane_append] at hchain
  exact hchain.next_eq

/-- On the ground lane there is every node. -/
theorem Contents.lane_zero {es : List (Entry Key Value)} (hes : es ⊆ c.entries) :
    lane 0 es = es.map Entry.ptr := by
  rw [lane, List.filter_eq_self.mpr]
  intro e he
  simpa using (c.leveled e (hes he)).1

theorem behind_subset (key : Key) (es : List (Entry Key Value)) : behind key es ⊆ es :=
  (List.dropWhile_sublist _).subset

/-- If the key is there, the first node behind its place carries it. -/
theorem behind_head {e : Entry Key Value} (he : e ∈ c.entries) (hkey : e.key = key) :
    ∃ f fs, behind key c.entries = f :: fs ∧ f.key = key := by
  have hmem : e ∈ behind key c.entries := by
    rw [← before_append_behind key c.entries] at he
    refine (List.mem_append.mp he).resolve_left ?_
    intro hb
    exact absurd (key_lt_of_mem_before hb) (by simp [hkey])
  cases hb : behind key c.entries with
  | nil => simp [hb] at hmem
  | cons f fs =>
      refine ⟨f, fs, rfl, le_antisymm ?_ (key_le_of_mem_behind c.sorted (by simp [hb]))⟩
      rw [hb] at hmem
      have hs : (f :: fs).Pairwise fun e f => e.key ≤ f.key :=
        hb ▸ c.sorted.sublist (List.dropWhile_sublist _)
      rcases List.mem_cons.mp hmem with rfl | hmem
      · exact le_of_eq hkey
      · exact hkey ▸ (List.pairwise_cons.mp hs).1 e hmem

/-! ## The first turn of the walk back up -/

omit [LinearOrder Key] in
theorem relinkTurn_zero (nodeToRemove : Ptr) (previousNodes : Tower)
    (heap : Heap (Node Key Value)) :
    relinkTurn nodeToRemove previousNodes (0, heap)
      = .error (.indexOutOfRange (2 ^ 64 - 1)) := by
  have hget : previousNodes.get (sizePred 0) = .error (.indexOutOfRange (2 ^ 64 - 1)) :=
    previousNodes.get_of_le (by decide)
  simp only [relinkTurn, if_pos (Nat.zero_le MAX_LEVEL), hget]
  rfl

/-- **Removing a key that is there** leaves the array of predecessors at once. -/
theorem remove_present (h : Linked l c) {e : Entry Key Value} (he : e ∈ c.entries)
    (hkey : e.key = key) :
    Ends (fun fuel => l.remove fuel key) (.error (.indexOutOfRange (2 ^ 64 - 1))) := by
  obtain ⟨d, hd, hends⟩ := removeDescent_found h key
  obtain ⟨f, fs, hbehind, hf⟩ := behind_head he hkey
  have hmem : f ∈ c.entries := behind_subset key _ (by simp [hbehind])
  have hnext : getNext l.heap (some d.node) 0 = .ok (some f.ptr) := by
    rw [hd.node, getNext_eq (h.allocated (predAt_mem_ptrs c key 0)) (by decide),
      h.next_predAt, Contents.lane_zero (behind_subset key _), hbehind]
    rfl
  have hequal : keyEqual l.heap (some f.ptr) key = .ok true := by
    rw [keyEqual_some (h.entry f hmem), decide_eq_true hf]
  refine hends.bind ?_
  simp only [hnext, hequal, hd.level, lift_eq_done, done_ok_bind]
  exact Ends.bind_error (Ends.loop_error (relinkTurn_zero f.ptr d.previousNodes l.heap))

/-- **Removing a key that is not there** asks `d_nodes` to erase its end. -/
theorem remove_absent (h : Linked l c) (hkey : ∀ e ∈ c.entries, e.key ≠ key) :
    Ends (fun fuel => l.remove fuel key) (.error .eraseAtEnd) := by
  obtain ⟨d, hd, hends⟩ := removeDescent_found h key
  have hnext : getNext l.heap (some d.node) 0
      = .ok ((behind key c.entries).map Entry.ptr).head? := by
    rw [hd.node, getNext_eq (h.allocated (predAt_mem_ptrs c key 0)) (by decide),
      h.next_predAt, Contents.lane_zero (behind_subset key _)]
  refine hends.bind ?_
  cases hbehind : behind key c.entries with
  | nil =>
      rw [hbehind] at hnext
      simp only [hnext, lift_eq_done, done_ok_bind]
      exact Ends.const _
  | cons f fs =>
      have hmem : f ∈ c.entries := behind_subset key _ (by simp [hbehind])
      have hequal : keyEqual l.heap (some f.ptr) key = .ok false := by
        rw [keyEqual_some (h.entry f hmem), decide_eq_false (hkey f hmem)]
      rw [hbehind] at hnext
      simp only [hnext, List.map_cons, List.head?_cons, lift_eq_done, done_ok_bind, hequal]
      exact Ends.const _

/-! ## No removal succeeds -/

/-- What `remove` is to do to a list whose nodes, in order, are `es`: take the
first node of the key out of every lane and out of `d_nodes`, and leave the rest
as it is. -/
def RemovesFirst (l : SkipList Key Value) (es : List (Entry Key Value)) (key : Key) : Prop :=
  ∃ (l' : SkipList Key Value) (e : Entry Key Value) (es₁ es₂ : List (Entry Key Value)),
    Ends (fun fuel => l.remove fuel key) (.ok l') ∧
    es = es₁ ++ e :: es₂ ∧ e.key = key ∧ (∀ f ∈ es₁, f.key ≠ key) ∧
    (∀ i, i < MAX_LEVEL → Chain (nextOf l'.heap i) headerPtr (lane i (es₁ ++ es₂))) ∧
    (∀ f ∈ es₁ ++ es₂, payloadOf l'.heap f.ptr = payloadOf l.heap f.ptr) ∧
    l'.d_nodes = l.d_nodes.erase e.ptr ∧
    (∀ p ∈ l'.d_nodes, ∀ i, nextOf l'.heap i p ≠ some e.ptr)

/-- An inserted key is there. -/
theorem exists_mem_reference {calls : List (InsertCall Key Value)}
    (hkey : ∃ call ∈ calls, call.key = key) : ∃ e ∈ reference calls, e.key = key := by
  obtain ⟨call, hcall, hkey⟩ := hkey
  rw [← inserted_calls calls] at hcall
  obtain ⟨e, he, rfl⟩ := List.mem_map.mp hcall
  exact ⟨e, (reference_perm calls).mem_iff.mpr he, hkey⟩

/-- Every inserted key is one that `remove` goes wrong on. -/
theorem insertAll_remove [Inhabited Key] [Inhabited Value] (gen : Option LevelGenerator)
    {calls : List (InsertCall Key Value)} (hcalls : ∀ call ∈ calls, call.Leveled)
    (hkey : ∃ call ∈ calls, call.key = key) :
    ∃ l, Ends (fun fuel => insertAll fuel (SkipList.new gen) calls) (.ok l) ∧
      Ends (fun fuel => l.remove fuel key) (.error (.indexOutOfRange (2 ^ 64 - 1))) := by
  obtain ⟨l, c, hends, hlinked, hentries, -⟩ := insertAll_linked gen calls hcalls
  obtain ⟨e, he, hek⟩ := exists_mem_reference hkey
  exact ⟨l, hends, remove_present hlinked (hentries ▸ he) hek⟩

theorem not_removesFirst {es : List (Entry Key Value)} {fault : Fault}
    (h : Ends (fun fuel => l.remove fuel key) (.error fault)) : ¬ RemovesFirst l es key := by
  rintro ⟨l', -, -, -, hok, -⟩
  exact absurd (hok.unique h) (by simp)

/-- **No key that is there can be removed.**  Whatever has been inserted, with
whatever levels, `remove` of an inserted key leaves the array of predecessors. -/
theorem remove_never [Inhabited Key] [Inhabited Value] (gen : Option LevelGenerator)
    (calls : List (InsertCall Key Value)) (hcalls : ∀ call ∈ calls, call.Leveled)
    (hkey : ∃ call ∈ calls, call.key = key) (l : SkipList Key Value)
    (hl : Ends (fun fuel => insertAll fuel (SkipList.new gen) calls) (.ok l)) :
    Ends (fun fuel => l.remove fuel key) (.error (.indexOutOfRange (2 ^ 64 - 1))) ∧
      ¬ RemovesFirst l (reference calls) key := by
  obtain ⟨l', hends, hremove⟩ := insertAll_remove gen hcalls hkey
  obtain rfl : l = l' := Except.ok.inj (hl.unique hends)
  exact ⟨hremove, not_removesFirst hremove⟩

/-- Two nodes of one key, of levels 2 and 16. -/
theorem remove_never_duplicate : ∃ l : SkipList Nat Nat,
    Ends (fun fuel => insertAll fuel (SkipList.new none) [⟨7, 1, 2⟩, ⟨7, 2, 16⟩]) (.ok l) ∧
    Ends (fun fuel => l.remove fuel 7) (.error (.indexOutOfRange (2 ^ 64 - 1))) := by
  have hcalls : ∀ call ∈ ([⟨7, 1, 2⟩, ⟨7, 2, 16⟩] : List (InsertCall Nat Nat)),
      call.Leveled := by simp [InsertCall.Leveled, MAX_LEVEL]
  obtain ⟨l, -, hends, -⟩ := insertAll_linked none _ hcalls
  exact ⟨l, hends, (remove_never none _ hcalls ⟨⟨7, 1, 2⟩, by simp, rfl⟩ l hends).1⟩

/-- A list with one node, of level 1. -/
theorem remove_fails : ∃ l : SkipList Nat Nat,
    Ends (fun fuel => insertAll fuel (SkipList.new none) [⟨7, 1, 1⟩]) (.ok l) ∧
    ¬ RemovesFirst l (reference [⟨7, 1, 1⟩]) 7 := by
  have hcalls : ∀ call ∈ ([⟨7, 1, 1⟩] : List (InsertCall Nat Nat)), call.Leveled := by
    simp [InsertCall.Leveled, MAX_LEVEL]
  obtain ⟨l, hends, hremove⟩ := insertAll_remove none hcalls ⟨⟨7, 1, 1⟩, by simp, rfl⟩
  exact ⟨l, hends, not_removesFirst hremove⟩

end Nyctomek
