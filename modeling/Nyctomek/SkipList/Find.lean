/-
# `SkipList.Find` — which node of a key `find` meets

`insert` never looks whether its key is there already, so several nodes may
carry one key; they stand next to each other, the newest first.  `find` comes
down from the top and stops at the first node of the key that it meets: not the
newest one, but the newest among the tallest.

    find key   returns the value of   `firstTallest level` (the nodes of `key`, newest first)

The loop invariant says that every node ahead with a key up to `key` is no
taller than `level`.  It is what makes `level = currentNode->d_level` harmless:
a node moved to along lane `level - 1` has exactly that level, so the search
never climbs.
-/
import Nyctomek.SkipList.Insert
import Mathlib.Data.List.MinMax

namespace Nyctomek

open Prog SkipList

variable {Key Value : Type}

/-- The first of the tallest elements of a list. -/
def firstTallest {α : Type} (level : α → Nat) (es : List α) : Option α :=
  es.find? fun e => es.all fun f => level f ≤ level e

section FirstTallest
variable {α β : Type} {level : α → Nat}

theorem firstTallest_split {f : α} {es₁ es₂ : List α} (h₁ : ∀ e ∈ es₁, level e < level f)
    (h₂ : ∀ e ∈ es₂, level e ≤ level f) : firstTallest level (es₁ ++ f :: es₂) = some f := by
  refine List.find?_eq_some_iff_append.mpr ⟨?_, es₁, es₂, rfl, fun e he => ?_⟩
  · simp only [List.all_eq_true, List.mem_append, List.mem_cons, decide_eq_true_eq]
    rintro e (he | rfl | he)
    · exact Nat.le_of_lt (h₁ e he)
    · exact Nat.le_refl _
    · exact h₂ e he
  · simp only [Bool.not_eq_eq_eq_not, Bool.not_true, List.all_eq_false]
    exact ⟨f, by simp, by simpa using h₁ e he⟩

theorem firstTallest_eq_none_iff {es : List α} : firstTallest level es = none ↔ es = [] := by
  constructor
  · intro hnone
    cases hmax : es.argmax level with
    | none => exact List.argmax_eq_none.mp hmax
    | some e =>
        -- an element of greatest level passes the test
        have hall := List.find?_eq_none.mp hnone e (List.argmax_mem hmax)
        simp only [List.all_eq_true, decide_eq_true_eq] at hall
        exact absurd (fun f hf => List.le_of_mem_argmax hf hmax) hall
  · rintro rfl
    rfl

theorem firstTallest_map (g : β → α) (es : List β) :
    firstTallest level (es.map g) = (firstTallest (level ∘ g) es).map g := by
  simp only [firstTallest, List.find?_map, List.all_map]
  rfl

end FirstTallest

variable [LinearOrder Key]
variable {l : SkipList Key Value} {c : Contents Key Value} {key : Key}

/-- The nodes that carry `key`, in the order of the list. -/
def carriers (key : Key) (es : List (Entry Key Value)) : List (Entry Key Value) :=
  es.filter fun e => e.key = key

theorem carriers_append (key : Key) (es fs : List (Entry Key Value)) :
    carriers key (es ++ fs) = carriers key es ++ carriers key fs :=
  List.filter_append es fs

theorem mem_carriers {e : Entry Key Value} {es : List (Entry Key Value)} :
    e ∈ carriers key es ↔ e ∈ es ∧ e.key = key := by
  simp [carriers]

theorem carriers_eq_nil {es : List (Entry Key Value)} :
    carriers key es = [] ↔ ∀ e ∈ es, e.key ≠ key := by
  simp [carriers]

/-- A node of `key` splits its carriers. -/
theorem carriers_split {f : Entry Key Value} (hf : f.key = key)
    (es₁ es₂ : List (Entry Key Value)) :
    carriers key (es₁ ++ f :: es₂) = carriers key es₁ ++ f :: carriers key es₂ := by
  rw [carriers_append]
  simp [carriers, hf]

/-- A new node comes first among the carriers of its key. -/
theorem carriers_place (e : Entry Key Value) (es : List (Entry Key Value)) :
    carriers key (place e es) = if e.key = key then e :: carriers key es else carriers key es := by
  have hsplit : carriers key es
      = carriers key (before e.key es) ++ carriers key (behind e.key es) := by
    rw [← carriers_append, before_append_behind]
  rw [place, hsplit]
  by_cases hkey : e.key = key
  · have hnil : carriers key (before e.key es) = [] :=
      carriers_eq_nil.mpr fun f hf => ne_of_lt (hkey ▸ key_lt_of_mem_before hf)
    rw [if_pos hkey, carriers_split hkey, hnil, List.nil_append, List.nil_append]
  · rw [if_neg hkey, carriers_append]
    simp [carriers, hkey]

/-- The invariant of `find`: it stands behind smaller keys, and no node ahead
with a key up to `key` is taller than `level`. -/
def Searching (c : Contents Key Value) (key : Key) (m : Nat) (s : Search) : Prop :=
  ∃ A B, Standing c key s.level A B ∧ s.currentNode = lastPtr A ∧ m = s.level + B.length ∧
    ∀ e ∈ B, e.key ≤ key → e.level ≤ s.level

/-- What `find` should return. -/
def lookup (c : Contents Key Value) (key : Key) : Option Value :=
  (firstTallest Entry.level (carriers key c.entries)).map Entry.value

/-- Coming down from lane `i`, on which no key up to `key` lies ahead. -/
theorem Searching.down {i : Nat} {A B : List (Entry Key Value)}
    (st : Standing c key (i + 1) A B) (hlow : ∀ e ∈ B, e.key ≤ key → e.level ≤ i) :
    Searching c key (i + B.length) ⟨lastPtr A, i⟩ :=
  ⟨A, B, st.down (Nat.le_succ i), rfl, rfl, hlow⟩

/-- Moving on to the next node of the lane: the invariant leaves it exactly as
tall as the lane is high, so the search never climbs. -/
theorem Searching.advance {i : Nat} {A B₁ B₂ : List (Entry Key Value)} {f : Entry Key Value}
    (st : Standing c key (i + 1) A (B₁ ++ f :: B₂)) (hlt : f.key < key) (hf : i < f.level)
    (hlow : ∀ e ∈ B₁ ++ f :: B₂, e.key ≤ key → e.level ≤ i + 1) :
    f.level = i + 1 ∧ Searching c key (f.level + B₂.length) ⟨f.ptr, f.level⟩ := by
  have hlevel : f.level = i + 1 := Nat.le_antisymm (hlow f (by simp) (le_of_lt hlt)) hf
  have hstanding : Standing c key f.level (A ++ B₁ ++ [f]) B₂ :=
    st.advance hlt (Nat.le_refl _) (hlevel ▸ st.bound)
  refine ⟨hlevel, A ++ B₁ ++ [f], B₂, hstanding, (lastPtr_concat A B₁ f).symm, rfl, ?_⟩
  intro e he hkey
  exact hlevel ▸ hlow e (by simp [he]) hkey

/-- If the next node of lane `i` has a greater key, no node ahead with a key up
to `key` reaches that lane. -/
theorem Standing.low_of_lt {i : Nat} {A B₁ B₂ : List (Entry Key Value)} {f : Entry Key Value}
    (st : Standing c key (i + 1) A (B₁ ++ f :: B₂)) (hlow₁ : ∀ e ∈ B₁, e.level ≤ i)
    (hgt : key < f.key) : ∀ e ∈ B₁ ++ f :: B₂, e.key ≤ key → e.level ≤ i := by
  intro e he hkey
  rcases List.mem_append.mp he with he | he
  · exact hlow₁ e he
  · rcases List.mem_cons.mp he with rfl | he
    · exact absurd hkey (not_le_of_gt hgt)
    · exact absurd (le_trans (st.key_le he) hkey) (not_le_of_gt hgt)

theorem lookup_eq_none {A B : List (Entry Key Value)} (st : Standing c key 0 A B)
    (hlow : ∀ e ∈ B, e.key ≤ key → e.level ≤ 0) : lookup c key = none := by
  have hnil : carriers key c.entries = [] := by
    refine carriers_eq_nil.mpr ?_
    intro e he hkey
    have hpos := (c.leveled e he).1
    rw [st.split] at he
    rcases List.mem_append.mp he with he | he
    · exact absurd (st.below e he) (by simp [hkey])
    · exact absurd (hlow e he (le_of_eq hkey)) (Nat.not_le.mpr hpos)
  rw [lookup, hnil]
  rfl

theorem lookup_eq_some {i : Nat} {A B₁ B₂ : List (Entry Key Value)} {f : Entry Key Value}
    (st : Standing c key (i + 1) A (B₁ ++ f :: B₂)) (hf : f.key = key) (hlt : i < f.level)
    (hlow₁ : ∀ e ∈ B₁, e.level ≤ i)
    (hlow₂ : ∀ e ∈ B₁ ++ f :: B₂, e.key ≤ key → e.level ≤ i + 1) :
    lookup c key = some f.value := by
  have hsplit : c.entries = (A ++ B₁) ++ f :: B₂ := by rw [st.split, List.append_assoc]
  have htall : firstTallest Entry.level (carriers key c.entries) = some f := by
    rw [hsplit, carriers_split hf]
    refine firstTallest_split (fun e he => ?_) fun e he => ?_
    · obtain ⟨he, hkey⟩ := mem_carriers.mp he
      rcases List.mem_append.mp he with he | he
      · exact absurd (st.below e he) (by simp [hkey])
      · exact Nat.lt_of_le_of_lt (hlow₁ e he) hlt
    · obtain ⟨he, hkey⟩ := mem_carriers.mp he
      exact Nat.le_trans (hlow₂ e (by simp [he]) (le_of_eq hkey)) hlt
  rw [lookup, htall]
  rfl

/-- What an iteration of `find` that goes on does: it comes down one level, or moves along
the lane to a node of exactly this level. -/
def NeverClimbs (heap : Heap (Node Key Value)) (s s' : Search) : Prop :=
  (s'.currentNode = s.currentNode ∧ s'.level + 1 = s.level) ∨
    (getNext heap (some s.currentNode) (sizePred s.level) = .ok (some s'.currentNode) ∧
      s'.level = s.level ∧ ∃ node, heap.read s'.currentNode = some node ∧ node.d_level = s.level)

/-- **One iteration** of `find`. -/
theorem findTurn_cases (h : Linked l c) {m : Nat} {s : Search} (hs : Searching c key m s) :
    findTurn l.heap key s = .ok (.stop (lookup c key)) ∨
      ∃ s' m', findTurn l.heap key s = .ok (.again s') ∧ Searching c key m' s' ∧ m' < m ∧
        NeverClimbs l.heap s s' := by
  obtain ⟨cur, level⟩ := s
  obtain ⟨A, B, st, hcur, rfl, hlow⟩ := hs
  obtain rfl : cur = lastPtr A := hcur
  cases level with
  | zero => exact .inl (by rw [lookup_eq_none st hlow]; rfl)
  | succ i =>
      have hi : i < MAX_LEVEL := st.bound
      have hpred := sizePred_succ (Nat.lt_trans hi (by decide))
      have hget := getNext_eq (h.allocated st.lastPtr_mem) hi
      rw [st.next_eq h] at hget
      cases hlane : (lane i B).head? with
      | none =>
          have hnil := lane_eq_nil.mp (List.head?_eq_none_iff.mp hlane)
          refine .inr ⟨⟨lastPtr A, i⟩, i + B.length, ?_,
            Searching.down st fun e he _ => hnil e he, by simp only; omega, .inl ⟨rfl, rfl⟩⟩
          simp only [findTurn, Nat.succ_ne_zero, if_false, hpred, hget, hlane]
          rfl
      | some q =>
          obtain ⟨B₁, f, B₂, rfl, rfl, hf, hlow₁⟩ := lane_head hlane
          have hmem : f ∈ c.entries := by rw [st.split]; simp
          obtain ⟨n, hn, hk, hv, hl⟩ := payloadOf_eq_some (h.entry f hmem)
          have hturn : findTurn l.heap key ⟨lastPtr A, i + 1⟩ =
              if f.key = key then .ok (.stop (some f.value))
              else if f.key < key then .ok (.again ⟨f.ptr, f.level⟩)
              else .ok (.again ⟨lastPtr A, i⟩) := by
            simp only [findTurn, Nat.succ_ne_zero, if_false, hpred, hget, hlane, bind,
              Except.bind, Heap.deref_some hn, hk, hv, hl]
          by_cases heq : f.key = key
          · exact .inl (by rw [hturn, if_pos heq, lookup_eq_some st heq hf hlow₁ hlow])
          · by_cases hlt : f.key < key
            · obtain ⟨hlevel, hnext⟩ := Searching.advance st hlt hf hlow
              refine .inr ⟨⟨f.ptr, f.level⟩, f.level + B₂.length,
                by rw [hturn, if_neg heq, if_pos hlt], hnext, ?_, .inr ⟨?_, hlevel, n, hn, ?_⟩⟩
              · simp only [List.length_append, List.length_cons, hlevel]
                omega
              · simp only [hpred, hget, hlane]
              · exact hl.trans hlevel
            · have hgt : key < f.key := lt_of_le_of_ne (le_of_not_gt hlt) (Ne.symm heq)
              exact .inr ⟨⟨lastPtr A, i⟩, i + (B₁ ++ f :: B₂).length,
                by rw [hturn, if_neg heq, if_neg hlt],
                Searching.down st (st.low_of_lt hlow₁ hgt), by simp only; omega, .inl ⟨rfl, rfl⟩⟩

theorem findTurn_ok (h : Linked l c) (m : Nat) (s : Search) (hs : Searching c key m s) :
    TurnOk (findTurn l.heap key) (Searching c key) (fun r => r = .ok (lookup c key)) m s := by
  rcases findTurn_cases h hs with hstop | ⟨s', m', hagain, hs', hlt, -⟩
  · exact .inr (.inl ⟨_, hstop, rfl⟩)
  · exact .inl ⟨s', m', hagain, hs', hlt⟩

/-- Where `find` begins. -/
theorem find_start (h : Linked l c) (key : Key) :
    (∀ fuel, l.find fuel key = loop (findTurn l.heap key) fuel ⟨headerPtr, MAX_LEVEL⟩) ∧
      Searching c key (MAX_LEVEL + c.entries.length) ⟨headerPtr, MAX_LEVEL⟩ := by
  obtain ⟨k, v, hheader⟩ := h.header
  obtain ⟨n, hn, -, -, hlevel⟩ := payloadOf_eq_some hheader
  refine ⟨?_, [], c.entries, Standing.start c key, rfl, rfl, fun e he _ => (c.leveled e he).2⟩
  intro fuel
  simp only [SkipList.find, h.header_eq, lift_eq_done, done_ok_bind, Heap.deref_some hn, hlevel]

/-- **`find` computes `lookup`.** -/
theorem find_eq (h : Linked l c) (key : Key) :
    Ends (fun fuel => l.find fuel key) (.ok (lookup c key)) := by
  obtain ⟨hfind, hstart⟩ := find_start h key
  obtain ⟨r, rfl, hends⟩ := loop_variant_ends (findTurn_ok h) hstart
  exact hends.congr hfind

/-- `find` misses exactly the keys that no node carries. -/
theorem lookup_eq_none_iff : lookup c key = none ↔ ∀ e ∈ c.entries, e.key ≠ key := by
  rw [lookup, Option.map_eq_none_iff, firstTallest_eq_none_iff, carriers_eq_nil]

/-- The value found is that of a node with the key. -/
theorem mem_of_lookup {v : Value} (h : lookup c key = some v) :
    ∃ e ∈ c.entries, e.key = key ∧ e.value = v := by
  obtain ⟨e, he, hv⟩ := Option.map_eq_some_iff.mp h
  obtain ⟨hmem, hkey⟩ := mem_carriers.mp (List.mem_of_find?_eq_some he)
  exact ⟨e, hmem, hkey, hv⟩

/-! ## After any insertions -/

/-- `find` is right about `key` in the list that `calls` have left: it returns a value exactly
if a node has been inserted with this key, and then the value of such a node; if there is only
one, the value inserted. -/
def FindsInserted (l : SkipList Key Value) (calls : List (InsertCall Key Value)) (key : Key) :
    Prop :=
  ∃ result, Ends (fun fuel => l.find fuel key) (.ok result) ∧
    (result.isSome ↔ ∃ e ∈ inserted calls, e.key = key) ∧
    (∀ value, result = some value → ∃ e ∈ inserted calls,
      payloadOf l.heap e.ptr = some (key, value, e.level)) ∧
    ∀ call, (calls.filter fun call => call.key = key) = [call] → result = some call.value

/-- **`find` never misses and never invents.**  After any run of insertions, of any keys and
with any levels, it is right about every key. -/
theorem find_inserted [Inhabited Key] [Inhabited Value] (gen : Option LevelGenerator)
    (calls : List (InsertCall Key Value)) (hcalls : ∀ call ∈ calls, call.Leveled) :
    ∃ l : SkipList Key Value, Ends (fun fuel => insertAll fuel (SkipList.new gen) calls) (.ok l) ∧
      ∀ key, FindsInserted l calls key := by
  obtain ⟨l, c, hends, hlinked, hentries, -⟩ := insertAll_linked gen calls hcalls
  have hnode : ∀ e, e ∈ c.entries ↔ e ∈ inserted calls := by
    intro e
    rw [hentries, (reference_perm calls).mem_iff]
  refine ⟨l, hends, ?_⟩
  intro key
  have hsome : (lookup c key).isSome ↔ ∃ e ∈ inserted calls, e.key = key := by
    rw [Option.isSome_iff_ne_none, ne_eq, lookup_eq_none_iff]
    simp only [hnode, not_forall, not_not, exists_prop]
  refine ⟨lookup c key, find_eq hlinked key, hsome, ?_, ?_⟩
  · intro value hvalue
    obtain ⟨e, he, rfl, rfl⟩ := mem_of_lookup hvalue
    exact ⟨e, (hnode e).mp he, hlinked.entry e he⟩
  · intro call hcall
    have honly : ∀ e ∈ inserted calls, e.key = key → e.call = call := by
      intro e he hkey
      have hmem : e.call ∈ calls := by
        rw [← inserted_calls calls]
        exact List.mem_map_of_mem he
      have hfilter : e.call ∈ calls.filter fun call => call.key = key :=
        List.mem_filter.mpr ⟨hmem, decide_eq_true hkey⟩
      rw [hcall] at hfilter
      exact List.mem_singleton.mp hfilter
    have hmem : call ∈ calls.filter fun call => call.key = key := by simp [hcall]
    obtain ⟨hmem, hkey⟩ := List.mem_filter.mp hmem
    rw [← inserted_calls calls] at hmem
    obtain ⟨e, he, rfl⟩ := List.mem_map.mp hmem
    obtain ⟨value, hvalue⟩ := Option.isSome_iff_exists.mp
      (hsome.mpr ⟨e, he, of_decide_eq_true hkey⟩)
    obtain ⟨f, hf, hfkey, rfl⟩ := mem_of_lookup hvalue
    rw [hvalue, ← honly f ((hnode f).mp hf) hfkey]
    rfl

/-- Two pairs under one key, and one under another. -/
theorem find_inserted_duplicate : ∃ l : SkipList Nat Nat,
    Ends (fun fuel => insertAll fuel (SkipList.new none) [⟨7, 1, 2⟩, ⟨7, 2, 1⟩, ⟨3, 5, 16⟩]) (.ok l) ∧
      ∀ key, FindsInserted l [⟨7, 1, 2⟩, ⟨7, 2, 1⟩, ⟨3, 5, 16⟩] key :=
  find_inserted none [⟨7, 1, 2⟩, ⟨7, 2, 1⟩, ⟨3, 5, 16⟩] (by simp [InsertCall.Leveled, MAX_LEVEL])

/-! ## How many iterations -/

/-- After `n` iterations there are few left, and none has climbed. -/
theorem findTurn_after (h : Linked l c) {n : Nat} {s : Search}
    (hafter : after (findTurn l.heap key) n ⟨headerPtr, MAX_LEVEL⟩ = .ok (.again s)) :
    ∃ m, Searching c key m s ∧ n + m ≤ MAX_LEVEL + c.entries.length := by
  have hstep : ∀ k s s', (∃ m, Searching c key m s ∧ k + m ≤ MAX_LEVEL + c.entries.length) →
      findTurn l.heap key s = .ok (.again s') →
      ∃ m, Searching c key m s' ∧ k + 1 + m ≤ MAX_LEVEL + c.entries.length := by
    rintro k s s' ⟨m, hs, hle⟩ hturn
    rcases findTurn_cases h hs with hstop | ⟨s'', m', hagain, hs', hlt, -⟩
    · cases hturn.symm.trans hstop
    · obtain rfl := Turn.again.inj (Except.ok.inj (hturn.symm.trans hagain))
      exact ⟨m', hs', by omega⟩
  have hstart := (find_start h key).2
  have hrun := after_invariant hstep (k := 0) ⟨_, hstart, Nat.le_of_eq (Nat.zero_add _)⟩ hafter
  rwa [Nat.zero_add] at hrun

/-- **`find` never climbs.**  In a list of any insertions, with a node for each of them and
the header, `find` ends for every key.  Each of its iterations is one of the first
`MAX_LEVEL` and one for each insertion, and if it goes on it has come down one level or moved
to a node of the level that it is on. -/
theorem find_never_climbs [Inhabited Key] [Inhabited Value] (gen : Option LevelGenerator)
    (calls : List (InsertCall Key Value)) (hcalls : ∀ call ∈ calls, call.Leveled) :
    ∃ l : SkipList Key Value, Ends (fun fuel => insertAll fuel (SkipList.new gen) calls) (.ok l) ∧
      l.d_nodes.length = calls.length + 1 ∧
      ∀ key, (∃ result, Ends (fun fuel => l.find fuel key) (.ok result)) ∧
        ∃ start, (∀ fuel, l.find fuel key = loop (findTurn l.heap key) fuel start) ∧
          ∀ n s, after (findTurn l.heap key) n start = .ok (.again s) → s.level ≠ 0 →
            n + 1 ≤ MAX_LEVEL + calls.length ∧
              ∀ s', findTurn l.heap key s = .ok (.again s') → NeverClimbs l.heap s s' := by
  obtain ⟨l, c, hends, hlinked, hentries, hnodes⟩ := insertAll_linked gen calls hcalls
  have hlength : c.entries.length = calls.length := by
    rw [hentries, (reference_perm calls).length_eq, inserted, List.length_map, List.length_zipIdx]
  refine ⟨l, hends, by rw [hnodes, List.length_range], ?_⟩
  intro key
  refine ⟨⟨_, find_eq hlinked key⟩, _, (find_start hlinked key).1, ?_⟩
  intro n s hafter hlevel
  obtain ⟨m, hs, hle⟩ := findTurn_after hlinked hafter
  constructor
  · obtain ⟨A, B, -, -, hm, -⟩ := hs
    omega
  · intro s' hturn
    rcases findTurn_cases hlinked hs with hstop | ⟨s'', m', hagain, -, -, hclimb⟩
    · cases hturn.symm.trans hstop
    · obtain rfl := Turn.again.inj (Except.ok.inj (hturn.symm.trans hagain))
      exact hclimb

/-- Nodes of heights 2, 1 and 16, two of them with one key. -/
theorem find_never_climbs_three : ∃ l : SkipList Nat Nat,
    Ends (fun fuel => insertAll fuel (SkipList.new none) [⟨7, 1, 2⟩, ⟨7, 2, 1⟩, ⟨3, 5, 16⟩]) (.ok l) ∧
      l.d_nodes.length = 4 ∧ ∀ key, ∃ result, Ends (fun fuel => l.find fuel key) (.ok result) := by
  obtain ⟨l, hends, hlength, hfind⟩ := find_never_climbs none [⟨7, 1, 2⟩, ⟨7, 2, 1⟩, ⟨3, 5, 16⟩]
    (by simp [InsertCall.Leveled, MAX_LEVEL])
  exact ⟨l, hends, hlength, fun key => (hfind key).1⟩

end Nyctomek
