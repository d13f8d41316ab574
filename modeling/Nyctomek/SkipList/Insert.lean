/-
# `SkipList.Insert` — insertion keeps all sixteen chains

`Contents.insert` is insertion as the list should do it: the new node goes
immediately before the first node whose key is not less.  `insertAt_linked` says
that `insert` does this in memory on every lane the new node is tall enough for
and leaves the other lanes alone; `insertAll_linked` carries it over any run of
insertions from the empty list.
-/
import Nyctomek.SkipList.Descent

namespace Nyctomek

open Prog SkipList

variable {Key Value : Type}

/-! ## Allocation and the `for` loop -/

theorem payloadOf_alloc (heap : Heap (Node Key Value)) (n : Node Key Value) (q : Ptr) :
    payloadOf (heap.alloc n) q = if q = heap.fresh then some n.payload else payloadOf heap q := by
  by_cases hq : q = heap.fresh
  · subst hq
    simp [payloadOf, Heap.read_alloc_fresh]
  · simp only [payloadOf, Heap.read_alloc_of_ne _ _ hq, if_neg hq]

theorem nextOf_alloc (heap : Heap (Node Key Value)) (n : Node Key Value) (i : Nat) (q : Ptr) :
    nextOf (heap.alloc n) i q = if q = heap.fresh then n.d_nextNode.at i else nextOf heap i q := by
  by_cases hq : q = heap.fresh
  · subst hq
    simp [nextOf, Heap.read_alloc_fresh]
  · simp only [nextOf, Heap.read_alloc_of_ne _ _ hq, if_neg hq]

theorem Allocated.alloc {heap : Heap (Node Key Value)} {p : Ptr} (hp : Allocated heap p)
    (n : Node Key Value) : Allocated (heap.alloc n) p := by
  obtain ⟨a, ha⟩ := hp
  exact ⟨a, Heap.read_alloc_of_read n ha⟩

theorem Allocated.of_payload {heap heap' : Heap (Node Key Value)}
    (h : ∀ q, payloadOf heap' q = payloadOf heap q) {p : Ptr} (hp : Allocated heap p) :
    Allocated heap' p := by
  rw [allocated_iff] at hp ⊢
  rwa [h p]

/-- The links after the `for` loop: on every level of the new node it stands
behind its predecessor `pred i` and before the old successor of that. -/
def relinked (heap : Heap (Node Key Value)) (newNode : Ptr) (pred : Nat → Ptr) (level i : Nat)
    (q : Ptr) : Option Ptr :=
  if i < level then
    if q = newNode then nextOf heap i (pred i)
    else if q = pred i then some newNode
    else nextOf heap i q
  else nextOf heap i q

theorem linkLevels_eq (header : Ptr) {newNode : Ptr} {prev : Tower} {pred : Nat → Ptr}
    (level : Nat) (heap : Heap (Node Key Value)) (hlevel : level ≤ MAX_LEVEL)
    (hprev : ∀ j, j < level → prev.at j = some (pred j))
    (hpred : ∀ j, j < level → Allocated heap (pred j) ∧ pred j ≠ newNode)
    (hnew : Allocated heap newNode) :
    ∃ heap', linkLevels header newNode prev level heap = .ok heap' ∧
      (∀ q, payloadOf heap' q = payloadOf heap q) ∧ heap'.fresh = heap.fresh ∧
      ∀ i q, nextOf heap' i q = relinked heap newNode pred level i q := by
  induction level generalizing heap with
  | zero => exact ⟨heap, rfl, fun _ => rfl, rfl, fun i q => by simp [relinked]⟩
  | succ lvl ih =>
      have hlt : lvl < MAX_LEVEL := hlevel
      obtain ⟨halloc, hne⟩ := hpred lvl (Nat.lt_succ_self lvl)
      obtain ⟨heap₁, hset₁, hnext₁, hpay₁, hfresh₁⟩ :=
        setNext_eq (nextOf heap lvl (pred lvl)) hnew hlt
      have halloc₁ := halloc.of_payload hpay₁
      obtain ⟨heap₂, hset₂, hnext₂, hpay₂, hfresh₂⟩ :=
        setNext_eq (some newNode) halloc₁ hlt
      have hpay : ∀ q, payloadOf heap₂ q = payloadOf heap q :=
        fun q => (hpay₂ q).trans (hpay₁ q)
      obtain ⟨heap₃, hrun, hpay₃, hfresh₃, hnext₃⟩ := ih heap₂ (Nat.le_of_lt hlt)
        (fun j hj => hprev j (Nat.lt_succ_of_lt hj))
        (fun j hj => ⟨(hpred j (Nat.lt_succ_of_lt hj)).1.of_payload hpay,
          (hpred j (Nat.lt_succ_of_lt hj)).2⟩)
        (hnew.of_payload hpay)
      refine ⟨heap₃, ?_, fun q => (hpay₃ q).trans (hpay q),
        hfresh₃.trans (hfresh₂.trans hfresh₁), fun i q => ?_⟩
      · simp only [linkLevels, prev.get_of_lt hlt, hprev lvl (Nat.lt_succ_self lvl),
          getNext_eq halloc hlt, bind, Except.bind, hset₁, hset₂]
        exact hrun
      · rw [hnext₃]
        simp only [relinked, hnext₂, hnext₁]
        -- the top level is the one just linked, the others are untouched so far
        rcases Nat.lt_trichotomy i lvl with hi | rfl | hi
        · simp [hi, Nat.lt_succ_of_lt hi, Nat.ne_of_lt hi]
        · by_cases hq : q = newNode
          · simp [hq, Ne.symm hne]
          · simp [hq]
        · simp [Nat.not_lt.mpr (Nat.le_of_lt hi), Nat.not_lt.mpr hi, Nat.ne_of_gt hi]

/-! ## The place of the new node -/

variable [LinearOrder Key]

/-- Put `e` immediately before the first node whose key is not less. -/
def place (e : Entry Key Value) (es : List (Entry Key Value)) : List (Entry Key Value) :=
  before e.key es ++ e :: behind e.key es

theorem key_le_of_mem_behind {key : Key} {es : List (Entry Key Value)}
    (hs : es.Pairwise fun e f => e.key ≤ f.key) {e : Entry Key Value}
    (he : e ∈ behind key es) : key ≤ e.key := by
  induction es with
  | nil => simp [behind] at he
  | cons f es ih =>
      rw [behind, List.dropWhile_cons] at he
      split at he
      · exact ih (List.pairwise_cons.mp hs).2 he
      · next hf =>
          have hkf : key ≤ f.key := by simpa using hf
          rcases List.mem_cons.mp he with rfl | he
          · exact hkf
          · exact le_trans hkf ((List.pairwise_cons.mp hs).1 e he)

theorem mem_place {e f : Entry Key Value} {es : List (Entry Key Value)} :
    f ∈ place e es ↔ f = e ∨ f ∈ es := by
  have hsplit : f ∈ es ↔ f ∈ before e.key es ∨ f ∈ behind e.key es := by
    rw [← List.mem_append, before_append_behind]
  rw [place, List.mem_append, List.mem_cons, hsplit]
  tauto

theorem place_perm (e : Entry Key Value) (es : List (Entry Key Value)) :
    (place e es).Perm (e :: es) := by
  have h : (place e es).Perm (e :: (before e.key es ++ behind e.key es)) := List.perm_middle
  rwa [before_append_behind] at h

theorem place_sorted {e : Entry Key Value} {es : List (Entry Key Value)}
    (hs : es.Pairwise fun e f => e.key ≤ f.key) :
    (place e es).Pairwise fun e f => e.key ≤ f.key := by
  have hsplit := hs
  rw [← before_append_behind e.key es] at hsplit
  obtain ⟨hb, hd, hbd⟩ := List.pairwise_append.mp hsplit
  refine List.pairwise_append.mpr ⟨hb, List.pairwise_cons.mpr
    ⟨fun f hf => key_le_of_mem_behind hs hf, hd⟩, fun f hf g hg => ?_⟩
  rcases List.mem_cons.mp hg with rfl | hg
  · exact le_of_lt (key_lt_of_mem_before hf)
  · exact hbd f hf g hg

/-- Insertion on the abstract list. -/
def Contents.insert (c : Contents Key Value) (e : Entry Key Value)
    (hfresh : e.ptr ∉ headerPtr :: c.entries.map Entry.ptr)
    (hlevel : 0 < e.level ∧ e.level ≤ MAX_LEVEL) : Contents Key Value where
  entries := place e c.entries
  sorted := place_sorted c.sorted
  nodup := by
    have hperm : (headerPtr :: (place e c.entries).map Entry.ptr).Perm
        (e.ptr :: headerPtr :: c.entries.map Entry.ptr) :=
      (((place_perm e c.entries).map Entry.ptr).cons headerPtr).trans (List.Perm.swap _ _ _)
    exact hperm.nodup_iff.mpr (List.nodup_cons.mpr ⟨hfresh, c.nodup⟩)
  leveled f hf := by
    rcases mem_place.mp hf with rfl | hf
    · exact hlevel
    · exact c.leveled f hf

/-! ## Insertion in memory -/

variable {l : SkipList Key Value} {c : Contents Key Value}

theorem predAt_mem (c : Contents Key Value) (key : Key) (i : Nat) :
    predAt key c.entries i ∈ headerPtr :: lane i c.entries := by
  have hmem : predAt key c.entries i ∈ headerPtr :: lane i (before key c.entries) :=
    List.getLastD_mem_cons
  rcases List.mem_cons.mp hmem with hp | hp
  · exact List.mem_cons.mpr (.inl hp)
  · have hlane : lane i c.entries = lane i (before key c.entries) ++ lane i (behind key c.entries) := by
      rw [← lane_append, before_append_behind]
    rw [hlane]
    exact List.mem_cons_of_mem _ (List.mem_append_left _ hp)

theorem predAt_mem_ptrs (c : Contents Key Value) (key : Key) (i : Nat) :
    predAt key c.entries i ∈ headerPtr :: c.entries.map Entry.ptr :=
  List.cons_subset_cons _ (lane_subset i c.entries) (predAt_mem c key i)

/-- A pointer occurs on a lane only if its node is tall enough. -/
theorem Contents.lt_level (c : Contents Key Value) {e : Entry Key Value} (he : e ∈ c.entries)
    {i : Nat} (hi : e.ptr ∈ headerPtr :: lane i c.entries) : i < e.level := by
  have hnd := List.nodup_cons.mp c.nodup
  rcases List.mem_cons.mp hi with h0 | hmem
  · exact absurd (h0 ▸ List.mem_map_of_mem he) hnd.1
  · obtain ⟨f, hf, hptr⟩ := List.mem_map.mp hmem
    obtain ⟨hf, hlt⟩ := List.mem_filter.mp hf
    obtain rfl := List.inj_on_of_nodup_map hnd.2 hf he hptr
    simpa using hlt

theorem Linked.ne_fresh (h : Linked l c) {p : Ptr}
    (hp : p ∈ headerPtr :: c.entries.map Entry.ptr) : p ≠ l.heap.fresh := by
  rintro rfl
  exact h.fresh_notMem hp

section Relinked
variable {heap : Heap (Node Key Value)} {key : Key} {value : Value} {level i : Nat}

/-- The chains once the levels of the new node are linked. -/
theorem Linked.chain_place (h : Linked l c)
    (hnext : ∀ i q, nextOf heap i q =
      relinked (l.heap.alloc ⟨key, value, level, Tower.null⟩) l.heap.fresh
        (predAt key c.entries) level i q) (hi : i < MAX_LEVEL) :
    Chain (nextOf heap i) headerPtr
      (lane i (place ⟨l.heap.fresh, key, value, level⟩ c.entries)) := by
  have hchain := h.chain i hi
  have hnd := c.nodup.sublist ((lane_sublist i c.entries).cons_cons headerPtr)
  have hpred : predAt key c.entries i ≠ l.heap.fresh := h.ne_fresh (predAt_mem_ptrs c key i)
  have hfresh : l.heap.fresh ∉ headerPtr :: lane i c.entries := by
    intro hmem
    exact h.fresh_notMem (List.cons_subset_cons _ (lane_subset i c.entries) hmem)
  rw [place, lane_append]
  by_cases hlt : i < level
  · -- the new node is on this lane: it goes in behind its predecessor
    rw [lane_cons_of_lt hlt]
    rw [← before_append_behind key c.entries, lane_append] at hchain hnd hfresh
    refine hchain.insert hnd hfresh ?_ ?_ ?_
    · rw [hnext, relinked, if_pos hlt, if_pos rfl, nextOf_alloc, if_neg hpred]
      rfl
    · show nextOf heap i (predAt key c.entries i) = some l.heap.fresh
      rw [hnext, relinked, if_pos hlt, if_neg hpred, if_pos rfl]
    · intro r hr hr'
      rw [hnext, relinked, if_pos hlt, if_neg hr]
      exact (if_neg hr').trans ((nextOf_alloc _ _ _ _).trans (if_neg hr))
  · -- it is not: nothing on this lane has changed
    rw [lane_cons_of_le (Nat.le_of_not_lt hlt), ← lane_append]
    refine Chain.congr ?_ (before_append_behind key c.entries ▸ hchain)
    intro r hr
    rw [hnext, relinked, if_neg hlt, nextOf_alloc, if_neg]
    rintro rfl
    exact hfresh (by rwa [before_append_behind] at hr)

/-- Above its level a node, new or old, still has no link. -/
theorem Linked.null_place (h : Linked l c)
    (hnext : ∀ i q, nextOf heap i q =
      relinked (l.heap.alloc ⟨key, value, level, Tower.null⟩) l.heap.fresh
        (predAt key c.entries) level i q) {e : Entry Key Value}
    (he : e ∈ place ⟨l.heap.fresh, key, value, level⟩ c.entries) (hi : e.level ≤ i) :
    nextOf heap i e.ptr = none := by
  rw [hnext, relinked]
  rcases mem_place.mp he with rfl | he
  · rw [if_neg (Nat.not_lt.mpr hi), nextOf_alloc, if_pos rfl, Tower.at_null]
  · have hne : e.ptr ≠ l.heap.fresh :=
      h.ne_fresh (List.mem_cons_of_mem _ (List.mem_map_of_mem he))
    have hnp : e.ptr ≠ predAt key c.entries i := by
      intro heq
      exact absurd (c.lt_level he (heq ▸ predAt_mem c key i)) (Nat.not_lt.mpr hi)
    simp only [if_neg hne, if_neg hnp, nextOf_alloc, h.null e he i hi, ite_self]

end Relinked

/-- Linking a new node in: the list holds it in its place, and nothing else changes. -/
theorem link_linked (h : Linked l c) {d : Descent} {key : Key} (hd : Found c key d)
    (value : Value) {level : Nat} (hlevel : 0 < level ∧ level ≤ MAX_LEVEL) :
    ∃ l', l.link d.previousNodes key value level = .ok l' ∧
      Linked l' (c.insert ⟨l.heap.fresh, key, value, level⟩ h.fresh_notMem hlevel) ∧
      l'.d_nodes = l.d_nodes ++ [l.heap.fresh] ∧ l'.heap.fresh = l.heap.fresh + 1 ∧
      l'.d_levelGenerator = l.d_levelGenerator := by
  have hnewAlloc : Allocated (l.heap.alloc ⟨key, value, level, Tower.null⟩) l.heap.fresh :=
    ⟨_, Heap.read_alloc_fresh _ _⟩
  obtain ⟨heap, hrun, hpay, hfresh, hnext⟩ := linkLevels_eq headerPtr level
    (l.heap.alloc ⟨key, value, level, Tower.null⟩) hlevel.2
    (fun j hj => hd.previous j (Nat.lt_of_lt_of_le hj hlevel.2))
    (fun j _ => ⟨(h.allocated (predAt_mem_ptrs c key j)).alloc _,
      h.ne_fresh (predAt_mem_ptrs c key j)⟩) hnewAlloc
  have hpay' : ∀ q, payloadOf heap q = if q = l.heap.fresh then some (key, value, level)
      else payloadOf l.heap q := fun q => (hpay q).trans (payloadOf_alloc _ _ q)
  refine ⟨{ l with d_nodes := l.d_nodes ++ [l.heap.fresh], heap }, ?_, ?_, rfl,
    hfresh.trans (Heap.fresh_alloc _ _), rfl⟩
  · simp only [SkipList.link, h.header_eq, bind, Except.bind, hrun]
  · refine ⟨?_, ?_, fun i hi => h.chain_place hnext hi,
      fun e he i hi => h.null_place hnext he hi, ?_⟩
    · obtain ⟨k, v, hk⟩ := h.header
      exact ⟨k, v, by rw [hpay', if_neg (h.ne_fresh (by simp)), hk]⟩
    · intro e he
      rcases mem_place.mp he with rfl | he
      · exact (hpay' _).trans (if_pos rfl)
      · have hne := h.ne_fresh (List.mem_cons_of_mem _ (List.mem_map_of_mem he))
        rw [hpay', if_neg hne, h.entry e he]
    · obtain ⟨order, hd, hperm⟩ := h.owned
      refine ⟨order ++ [l.heap.fresh], by simp [hd], ?_⟩
      have hplace := (place_perm (⟨l.heap.fresh, key, value, level⟩ : Entry Key Value)
        c.entries).map Entry.ptr
      exact (List.perm_append_singleton _ _).trans ((hperm.cons _).trans hplace.symm)

theorem insertAt_linked (h : Linked l c) (key : Key) (value : Value) {level : Nat}
    (hlevel : 0 < level ∧ level ≤ MAX_LEVEL) :
    ∃ l', Ends (fun fuel => l.insertAt fuel key value level) (.ok l') ∧
      Linked l' (c.insert ⟨l.heap.fresh, key, value, level⟩ h.fresh_notMem hlevel) ∧
      l'.d_nodes = l.d_nodes ++ [l.heap.fresh] ∧ l'.heap.fresh = l.heap.fresh + 1 := by
  obtain ⟨d, hd, hends⟩ := insertDescent_found h key
  obtain ⟨l', hlink, hlinked, hnodes, hfresh, -⟩ := link_linked h hd value hlevel
  refine ⟨l', hends.bind ?_, hlinked, hnodes, hfresh⟩
  simp only [hlink]
  exact Ends.const _

theorem randLevel_bounds (room level : Nat) (draws : Draws) :
    level ≤ (randLevel room level draws).1 ∧ (randLevel room level draws).1 ≤ level + room := by
  induction room generalizing level draws with
  | zero => simp [randLevel]
  | succ room ih =>
      rw [randLevel]
      split
      · simp
      · have h := ih (level + 1) fun n => draws (n + 1)
        omega

/-- The level the draws give a new node, and the draws left over. -/
def drawLevel (draws : Draws) : Nat × Draws := randLevel (MAX_LEVEL - 1) 1 draws

theorem drawLevel_bounds (draws : Draws) :
    0 < (drawLevel draws).1 ∧ (drawLevel draws).1 ≤ MAX_LEVEL :=
  randLevel_bounds (MAX_LEVEL - 1) 1 draws

/-- `insert` in a list without a generator of its own draws a level. -/
theorem insert_linked (h : Linked l c) (hgen : l.d_levelGenerator = none) (draws : Draws)
    (key : Key) (value : Value) :
    ∃ l', Ends (fun fuel => l.insert fuel draws key value) (.ok (l', (drawLevel draws).2)) ∧
      Linked l' (c.insert ⟨l.heap.fresh, key, value, (drawLevel draws).1⟩ h.fresh_notMem
        (drawLevel_bounds draws)) ∧
      l'.d_levelGenerator = none := by
  obtain ⟨d, hd, hends⟩ := insertDescent_found h key
  obtain ⟨l', hlink, hlinked, -, -, hgen'⟩ := link_linked h hd value (drawLevel_bounds draws)
  refine ⟨l', hends.bind ?_, hlinked, hgen'.trans hgen⟩
  have hlevel : l.computeLevel draws
      = .ok ((drawLevel draws).1, none, (drawLevel draws).2) := by
    simp only [computeLevel, hgen]
    rfl
  have hself : ({ l with d_levelGenerator := none } : SkipList Key Value) = l := by
    rw [← hgen]
  simp only [hlevel, lift_eq_done, done_ok_bind, hself, hlink]
  exact Ends.const _

/-! ## Runs of insertions -/

/-- A call of `insert`, with the level that `computeLevel` returns for it. -/
structure InsertCall (Key Value : Type) where
  key : Key
  value : Value
  level : Nat
  deriving DecidableEq, Repr

/-- The call that made a node. -/
def Entry.call (e : Entry Key Value) : InsertCall Key Value := ⟨e.key, e.value, e.level⟩

def InsertCall.Leveled (call : InsertCall Key Value) : Prop :=
  0 < call.level ∧ call.level ≤ MAX_LEVEL

def insertAll (fuel : Nat) (l : SkipList Key Value) (calls : List (InsertCall Key Value)) :
    Exec Fault (SkipList Key Value) :=
  calls.foldlM (fun l call => l.insertAt fuel call.key call.value call.level) l

/-- The nodes of a run of insertions as they are made; the `n`-th node allocated
is the `n`-th pair, the header being the 0th. -/
def inserted (calls : List (InsertCall Key Value)) : List (Entry Key Value) :=
  (calls.zipIdx 1).map fun x => ⟨x.2, x.1.key, x.1.value, x.1.level⟩

/-- The list a run of insertions should leave: each new node put immediately
before the first one whose key is not less. -/
def reference (calls : List (InsertCall Key Value)) : List (Entry Key Value) :=
  (inserted calls).foldl (fun es e => place e es) []

/-- The same on bare pairs, where no level occurs. -/
def referencePairs (pairs : List (Key × Value)) : List (Key × Value) :=
  pairs.foldl (fun ps p => (ps.takeWhile fun q => q.1 < p.1) ++ p ::
    ps.dropWhile fun q => q.1 < p.1) []

/-- Key and value of a node. -/
def Entry.pair (e : Entry Key Value) : Key × Value := (e.key, e.value)

omit [LinearOrder Key] in
theorem inserted_concat (calls : List (InsertCall Key Value)) (call : InsertCall Key Value) :
    inserted (calls ++ [call])
      = inserted calls ++ [⟨calls.length + 1, call.key, call.value, call.level⟩] := by
  simp [inserted, List.zipIdx_append, Nat.add_comm]

omit [LinearOrder Key] in
/-- The nodes are those of the calls. -/
theorem inserted_calls (calls : List (InsertCall Key Value)) :
    (inserted calls).map Entry.call = calls := by
  have hfst : (inserted calls).map Entry.call = (calls.zipIdx 1).map Prod.fst := by
    rw [inserted, List.map_map]
    rfl
  rw [hfst, List.zipIdx_map_fst]

theorem reference_concat (calls : List (InsertCall Key Value)) (call : InsertCall Key Value) :
    reference (calls ++ [call])
      = place ⟨calls.length + 1, call.key, call.value, call.level⟩ (reference calls) := by
  simp [reference, inserted_concat]

theorem reference_perm (calls : List (InsertCall Key Value)) :
    (reference calls).Perm (inserted calls) := by
  induction calls using List.reverseRecOn with
  | nil => exact List.Perm.refl _
  | append_singleton calls call ih =>
      rw [reference_concat, inserted_concat]
      refine (place_perm _ _).trans ((ih.cons _).trans ?_)
      exact (List.perm_append_singleton _ _).symm

theorem place_pairs (e : Entry Key Value) (es : List (Entry Key Value)) :
    (place e es).map Entry.pair = ((es.map Entry.pair).takeWhile fun q => q.1 < e.key) ++
      e.pair :: (es.map Entry.pair).dropWhile fun q => q.1 < e.key := by
  have hkey : ∀ f : Entry Key Value,
      ((fun q : Key × Value => decide (q.1 < e.key)) ∘ Entry.pair) f = decide (f.key < e.key) :=
    fun _ => rfl
  rw [place, List.map_append, List.map_cons, List.takeWhile_map, List.dropWhile_map]
  rfl

theorem reference_pairs (calls : List (InsertCall Key Value)) :
    (reference calls).map Entry.pair
      = referencePairs (calls.map fun call => (call.key, call.value)) := by
  induction calls using List.reverseRecOn with
  | nil => rfl
  | append_singleton calls call ih =>
      rw [reference_concat, place_pairs, ih]
      simp [referencePairs, Entry.pair]

/-- The list without nodes. -/
def Contents.empty : Contents Key Value where
  entries := []
  sorted := List.Pairwise.nil
  nodup := by simp
  leveled := by simp

theorem new_linked [Inhabited Key] [Inhabited Value] (gen : Option LevelGenerator) :
    Linked (SkipList.new gen : SkipList Key Value) Contents.empty where
  header := ⟨default, default, rfl⟩
  entry := by simp [Contents.empty]
  chain i _ := Tower.at_null i
  null := by simp [Contents.empty]
  owned := ⟨[], rfl, List.Perm.refl _⟩

/-- A run of insertions from the empty list ends, and links the reference list. -/
theorem insertAll_linked [Inhabited Key] [Inhabited Value] (gen : Option LevelGenerator)
    (calls : List (InsertCall Key Value)) (hcalls : ∀ call ∈ calls, call.Leveled) :
    ∃ (l : SkipList Key Value) (c : Contents Key Value),
      Ends (fun fuel => insertAll fuel (SkipList.new gen) calls) (.ok l) ∧
      Linked l c ∧ c.entries = reference calls ∧
      l.d_nodes = List.range (calls.length + 1) := by
  let I : List (InsertCall Key Value) → SkipList Key Value → Prop := fun past l =>
    ∃ c, Linked l c ∧ c.entries = reference past ∧
      l.d_nodes = List.range (past.length + 1) ∧ l.heap.fresh = past.length + 1
  have hnil : I [] (SkipList.new gen) := ⟨Contents.empty, new_linked gen, rfl, rfl, rfl⟩
  obtain ⟨l, hends, c, hlinked, hentries, hnodes, -⟩ := Ends.foldlM hnil calls
    fun past call hpast l hI => by
      obtain ⟨c, h, hentries, hnodes, hfresh⟩ := hI
      have hcall := hcalls call (hpast.subset (by simp))
      obtain ⟨l', hends, h', hnodes', hfresh'⟩ :=
        insertAt_linked h call.key call.value hcall
      refine ⟨l', hends, _, h', ?_, ?_, ?_⟩
      · rw [reference_concat, ← hentries, ← hfresh]
        rfl
      · rw [hnodes', hnodes, hfresh, List.length_append, List.length_singleton, ← List.range_succ]
      · rw [hfresh', hfresh, List.length_append, List.length_singleton]
  exact ⟨l, c, hends, hlinked, hentries, hnodes⟩

/-- **The chains under insertion.**  After any run of insertions, for every
level `i`, the links of level `i` lead from the header exactly through the
inserted nodes taller than `i`, each once, in the order of the reference list,
and then end; the slots from a node's level up are null; `d_nodes` is the header
and then the nodes as they were inserted.  The pairs in level-0 order are given
by the calls without their levels. -/
theorem insert_chains [Inhabited Key] [Inhabited Value] (gen : Option LevelGenerator)
    (calls : List (InsertCall Key Value)) (hcalls : ∀ call ∈ calls, call.Leveled) :
    ∃ l : SkipList Key Value,
      Ends (fun fuel => insertAll fuel (SkipList.new gen) calls) (.ok l) ∧
      (reference calls).Perm (inserted calls) ∧
      (∀ e ∈ inserted calls, payloadOf l.heap e.ptr = some (e.key, e.value, e.level)) ∧
      (∀ i, i < MAX_LEVEL → Chain (nextOf l.heap i) headerPtr (lane i (reference calls)) ∧
        (lane i (reference calls)).Nodup) ∧
      (∀ e ∈ inserted calls, ∀ i, e.level ≤ i → nextOf l.heap i e.ptr = none) ∧
      l.d_nodes = headerPtr :: (inserted calls).map Entry.ptr ∧
      (reference calls).map Entry.pair
        = referencePairs (calls.map fun call => (call.key, call.value)) := by
  obtain ⟨l, c, hends, hlinked, hentries, hnodes⟩ := insertAll_linked gen calls hcalls
  have hperm := reference_perm calls
  refine ⟨l, hends, hperm, fun e he => ?_, fun i hi => ⟨?_, ?_⟩, fun e he i hi => ?_, ?_,
    reference_pairs calls⟩
  · exact hlinked.entry e (hentries ▸ hperm.mem_iff.mpr he)
  · exact hentries ▸ hlinked.chain i hi
  · exact (List.nodup_cons.mp (hentries ▸ c.nodup)).2.sublist (lane_sublist i _)
  · exact hlinked.null e (hentries ▸ hperm.mem_iff.mpr he) i hi
  · have hptrs : (inserted calls).map Entry.ptr = List.range' 1 calls.length := by
      simp [inserted, Function.comp_def, List.zipIdx_map_snd]
    rw [hnodes, hptrs, List.range_eq_range', List.range'_succ]

/-- Two pairs under one key, the newer one lower than the older one. -/
theorem insert_chains_duplicate :
    ∃ l : SkipList Nat Nat,
      Ends (fun fuel => insertAll fuel (SkipList.new none) [⟨7, 1, 2⟩, ⟨7, 2, 1⟩]) (.ok l) ∧
      Chain (nextOf l.heap 0) headerPtr [2, 1] ∧ Chain (nextOf l.heap 1) headerPtr [1] := by
  obtain ⟨l, hends, -, -, hchain, -⟩ := insert_chains none
    ([⟨7, 1, 2⟩, ⟨7, 2, 1⟩] : List (InsertCall Nat Nat))
    (by simp [InsertCall.Leveled, MAX_LEVEL])
  exact ⟨l, hends, (hchain 0 (by decide)).1, (hchain 1 (by decide)).1⟩

end Nyctomek
