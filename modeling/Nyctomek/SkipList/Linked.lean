/-
# `SkipList.Linked` — what a well-formed skip list looks like in memory

`Contents` is the abstract list: the nodes in level-0 order with their keys,
values and levels.  `Linked l c` says that the memory of `l` spells it: the
chain of every level `i` runs from the header through exactly the nodes taller
than `i`, in the order of the list, and then ends.

The operations read and write memory through the accesses of `SkipList.Basic`.
This module turns each access into an equation about `nextOf` and `payloadOf`,
the link and the rest of a node, and gives the one step that all three descents
make: from a node behind the entries `A`, look at the next entry on the lane.
-/
import Nyctomek.SkipList.Basic
import Nyctomek.Prog.Chain
import Mathlib.Data.List.TakeWhile

namespace Nyctomek

open Prog

theorem sizePred_succ {n : Nat} (hn : n < 2 ^ 64) : sizePred (n + 1) = n := by
  unfold sizePred
  omega

/-! ## Towers -/

/-- The pointer in a slot, null for a slot the tower does not have. -/
def Tower.at (t : Tower) (i : Nat) : Option Ptr := (t[i]?).join

theorem Tower.get_of_lt (t : Tower) {i : Nat} (hi : i < MAX_LEVEL) :
    t.get i = .ok (t.at i) := by
  simp only [Tower.get, dif_pos hi, Tower.at, Vector.getElem?_eq_getElem hi, Option.join_some]

theorem Tower.get_of_le (t : Tower) {i : Nat} (hi : MAX_LEVEL ≤ i) :
    t.get i = .error (.indexOutOfRange i) := by
  simp only [Tower.get, dif_neg (Nat.not_lt.mpr hi)]

theorem Tower.set_of_lt (t : Tower) {i : Nat} (p : Option Ptr) (hi : i < MAX_LEVEL) :
    ∃ t', t.set i p = .ok t' ∧ ∀ j, t'.at j = if j = i then p else t.at j := by
  refine ⟨Vector.set t i p hi, by simp only [Tower.set, dif_pos hi], ?_⟩
  intro j
  unfold Tower.at
  by_cases hj : j = i
  · subst hj
    simp [hi]
  · rw [if_neg hj, Vector.getElem?_set_ne hi (Ne.symm hj)]

@[simp] theorem Tower.at_null (i : Nat) : Tower.null.at i = none := by
  unfold Tower.at Tower.null
  rcases Nat.lt_or_ge i MAX_LEVEL with hi | hi
  · simp [hi]
  · simp [hi]

/-! ## Links and payloads -/

variable {Key Value : Type}

/-- Everything in a node but its links. -/
def Node.payload (n : Node Key Value) : Key × Value × Nat := (n.d_key, n.d_value, n.d_level)

def payloadOf (heap : Heap (Node Key Value)) (p : Ptr) : Option (Key × Value × Nat) :=
  (heap.read p).map Node.payload

/-- The link of level `i` of the node at `p`. -/
def nextOf (heap : Heap (Node Key Value)) (i : Nat) (p : Ptr) : Option Ptr :=
  (heap.read p).bind fun n => n.d_nextNode.at i

theorem payloadOf_eq_some {heap : Heap (Node Key Value)} {p : Ptr} {k : Key} {v : Value}
    {lvl : Nat} (h : payloadOf heap p = some (k, v, lvl)) :
    ∃ n, heap.read p = some n ∧ n.d_key = k ∧ n.d_value = v ∧ n.d_level = lvl := by
  obtain ⟨n, hn, hp⟩ := Option.map_eq_some_iff.mp h
  simp only [Node.payload, Prod.mk.injEq] at hp
  exact ⟨n, hn, hp⟩

/-- `p` points to a node. -/
def Allocated (heap : Heap (Node Key Value)) (p : Ptr) : Prop := ∃ n, heap.read p = some n

theorem allocated_iff {heap : Heap (Node Key Value)} {p : Ptr} :
    Allocated heap p ↔ (payloadOf heap p).isSome = true := by
  simp [Allocated, payloadOf, Option.isSome_iff_exists]

theorem allocated_of_payloadOf {heap : Heap (Node Key Value)} {p : Ptr} {x : Key × Value × Nat}
    (h : payloadOf heap p = some x) : Allocated heap p := by
  obtain ⟨n, hn, -⟩ := Option.map_eq_some_iff.mp h
  exact ⟨n, hn⟩

theorem getNext_eq {heap : Heap (Node Key Value)} {p : Ptr} {i : Nat}
    (hp : Allocated heap p) (hi : i < MAX_LEVEL) :
    getNext heap (some p) i = .ok (nextOf heap i p) := by
  obtain ⟨n, hn⟩ := hp
  simp only [getNext, Heap.deref_some hn, nextOf, hn, Option.bind_some]
  exact n.d_nextNode.get_of_lt hi

/-- A write to one slot changes that link and nothing else. -/
theorem setNext_eq {heap : Heap (Node Key Value)} {p : Ptr} {i : Nat} (v : Option Ptr)
    (hp : Allocated heap p) (hi : i < MAX_LEVEL) :
    ∃ heap', setNext heap (some p) i v = .ok heap' ∧
      (∀ j q, nextOf heap' j q = if j = i ∧ q = p then v else nextOf heap j q) ∧
      (∀ q, payloadOf heap' q = payloadOf heap q) ∧ heap'.fresh = heap.fresh := by
  obtain ⟨n, hn⟩ := hp
  obtain ⟨t, ht, hat⟩ := n.d_nextNode.set_of_lt v hi
  have hself : (heap.write p { n with d_nextNode := t }).read p
      = some { n with d_nextNode := t } := Heap.read_write_self _ (Heap.read_lt_fresh hn)
  refine ⟨heap.write p { n with d_nextNode := t }, ?_, ?_, ?_, Heap.fresh_write _ _ _⟩
  · show (do
        let node ← heap.deref (some p)
        let tower ← node.d_nextNode.set i v
        Except.ok (heap.write p { node with d_nextNode := tower })) = _
    rw [Heap.deref_some hn]
    show (do
        let tower ← n.d_nextNode.set i v
        Except.ok (heap.write p { n with d_nextNode := tower })) = _
    rw [ht]
    rfl
  · intro j q
    by_cases hq : q = p
    · subst hq
      simp only [nextOf, hself, hn, Option.bind_some, hat, and_true]
    · simp only [nextOf, Heap.read_write_of_ne _ _ hq, hq, and_false, if_false]
  · intro q
    by_cases hq : q = p
    · subst hq
      simp only [payloadOf, hself, hn, Option.map_some, Node.payload]
    · simp only [payloadOf, Heap.read_write_of_ne _ _ hq]

theorem keyBelow_some [LinearOrder Key] {heap : Heap (Node Key Value)} {q : Ptr} {k : Key}
    {v : Value} {lvl : Nat} (hq : payloadOf heap q = some (k, v, lvl)) (key : Key) :
    keyBelow heap (some q) key = .ok (decide (k < key)) := by
  obtain ⟨n, hn, rfl, -, -⟩ := payloadOf_eq_some hq
  simp only [keyBelow, Heap.deref_some hn]
  rfl

theorem keyEqual_some [LinearOrder Key] {heap : Heap (Node Key Value)} {q : Ptr} {k : Key}
    {v : Value} {lvl : Nat} (hq : payloadOf heap q = some (k, v, lvl)) (key : Key) :
    keyEqual heap (some q) key = .ok (decide (k = key)) := by
  obtain ⟨n, hn, rfl, -, -⟩ := payloadOf_eq_some hq
  simp only [keyEqual, Heap.deref_some hn]
  rfl

/-! ## The abstract list -/

/-- A node of the list as the abstract level sees it. -/
structure Entry (Key Value : Type) where
  ptr : Ptr
  key : Key
  value : Value
  level : Nat
  deriving DecidableEq, Repr

/-- The header is the first node allocated. -/
abbrev headerPtr : Ptr := 0

/-- The nodes on level `i`: those taller than `i`, in order. -/
def lane (i : Nat) (es : List (Entry Key Value)) : List Ptr :=
  (es.filter fun e => i < e.level).map Entry.ptr

@[simp] theorem lane_nil (i : Nat) : lane i ([] : List (Entry Key Value)) = [] := rfl

theorem lane_append (i : Nat) (es fs : List (Entry Key Value)) :
    lane i (es ++ fs) = lane i es ++ lane i fs := by
  simp [lane]

theorem lane_cons_of_lt {i : Nat} {e : Entry Key Value} (he : i < e.level)
    (es : List (Entry Key Value)) : lane i (e :: es) = e.ptr :: lane i es := by
  simp [lane, he]

theorem lane_cons_of_le {i : Nat} {e : Entry Key Value} (he : e.level ≤ i)
    (es : List (Entry Key Value)) : lane i (e :: es) = lane i es := by
  simp [lane, Nat.not_lt.mpr he]

theorem lane_eq_nil {i : Nat} {es : List (Entry Key Value)} :
    lane i es = [] ↔ ∀ e ∈ es, e.level ≤ i := by
  simp [lane]

theorem lane_subset (i : Nat) (es : List (Entry Key Value)) :
    lane i es ⊆ es.map Entry.ptr :=
  List.map_subset _ (List.filter_subset_self es)

theorem lane_sublist (i : Nat) (es : List (Entry Key Value)) :
    (lane i es).Sublist (es.map Entry.ptr) :=
  List.filter_sublist.map _

/-- The first node of a lane splits the list there. -/
theorem lane_head {i : Nat} {es : List (Entry Key Value)} {q : Ptr}
    (h : (lane i es).head? = some q) :
    ∃ es₁ f es₂, es = es₁ ++ f :: es₂ ∧ f.ptr = q ∧ i < f.level ∧
      ∀ e ∈ es₁, e.level ≤ i := by
  induction es with
  | nil => simp at h
  | cons e es ih =>
      by_cases he : i < e.level
      · rw [lane_cons_of_lt he] at h
        exact ⟨[], e, es, rfl, Option.some.inj h, he, by simp⟩
      · rw [lane_cons_of_le (Nat.le_of_not_lt he)] at h
        obtain ⟨es₁, f, es₂, rfl, hq, hf, hlow⟩ := ih h
        refine ⟨e :: es₁, f, es₂, rfl, hq, hf, ?_⟩
        intro g hg
        rcases List.mem_cons.mp hg with rfl | hg
        · exact Nat.le_of_not_lt he
        · exact hlow g hg

section Ordered
variable [LinearOrder Key]

/-- The nodes before the place of `key`. -/
def before (key : Key) (es : List (Entry Key Value)) : List (Entry Key Value) :=
  es.takeWhile fun e => e.key < key

/-- The nodes from the place of `key` on. -/
def behind (key : Key) (es : List (Entry Key Value)) : List (Entry Key Value) :=
  es.dropWhile fun e => e.key < key

theorem before_append_behind (key : Key) (es : List (Entry Key Value)) :
    before key es ++ behind key es = es :=
  List.takeWhile_append_dropWhile

theorem key_lt_of_mem_before {key : Key} {es : List (Entry Key Value)} {e : Entry Key Value}
    (he : e ∈ before key es) : e.key < key := by
  simpa using List.mem_takeWhile_imp he

/-- A list of nodes in level-0 order: keys never go down, no node (nor the
header) occurs twice, and every level is one that a tower can have. -/
structure Contents (Key Value : Type) [LinearOrder Key] where
  entries : List (Entry Key Value)
  sorted : entries.Pairwise fun e f => e.key ≤ f.key
  nodup : (headerPtr :: entries.map Entry.ptr).Nodup
  leveled : ∀ e ∈ entries, 0 < e.level ∧ e.level ≤ MAX_LEVEL

/-- The memory of `l` spells the list `c`. -/
structure Linked (l : SkipList Key Value) (c : Contents Key Value) : Prop where
  header : ∃ k v, payloadOf l.heap headerPtr = some (k, v, MAX_LEVEL)
  entry : ∀ e ∈ c.entries, payloadOf l.heap e.ptr = some (e.key, e.value, e.level)
  chain : ∀ i, i < MAX_LEVEL → Chain (nextOf l.heap i) headerPtr (lane i c.entries)
  null : ∀ e ∈ c.entries, ∀ i, e.level ≤ i → nextOf l.heap i e.ptr = none
  owned : ∃ order, l.d_nodes = headerPtr :: order ∧ order.Perm (c.entries.map Entry.ptr)

variable {l : SkipList Key Value} {c : Contents Key Value}

theorem Linked.header_eq (h : Linked l c) : l.header = .ok headerPtr := by
  obtain ⟨order, hd, -⟩ := h.owned
  simp only [SkipList.header, hd]

theorem Linked.allocated (h : Linked l c) {p : Ptr}
    (hp : p ∈ headerPtr :: c.entries.map Entry.ptr) : Allocated l.heap p := by
  rcases List.mem_cons.mp hp with rfl | hp
  · obtain ⟨k, v, hk⟩ := h.header
    exact allocated_of_payloadOf hk
  · obtain ⟨e, he, rfl⟩ := List.mem_map.mp hp
    exact allocated_of_payloadOf (h.entry e he)

theorem Linked.fresh_notMem (h : Linked l c) :
    l.heap.fresh ∉ headerPtr :: c.entries.map Entry.ptr := by
  intro hmem
  obtain ⟨n, hn⟩ := h.allocated hmem
  simp [Heap.read_fresh] at hn

/-! ## The step of a descent -/

/-- The last node of `es`, or the header. -/
def lastPtr (es : List (Entry Key Value)) : Ptr := (es.map Entry.ptr).getLastD headerPtr

/-- The predecessor at level `i` of a new node with this key. -/
def predAt (key : Key) (es : List (Entry Key Value)) (i : Nat) : Ptr :=
  (lane i (before key es)).getLastD headerPtr

/-- A descent looking for `key` stands behind the entries `A`, at a node with
more than the lanes below `level`. -/
structure Standing (c : Contents Key Value) (key : Key) (level : Nat)
    (A B : List (Entry Key Value)) : Prop where
  split : c.entries = A ++ B
  below : ∀ e ∈ A, e.key < key
  tall : ∀ A' e, A = A' ++ [e] → level ≤ e.level
  bound : level ≤ MAX_LEVEL

theorem Standing.start (c : Contents Key Value) (key : Key) :
    Standing c key MAX_LEVEL [] c.entries where
  split := rfl
  below := by simp
  tall := by simp
  bound := Nat.le_refl _

theorem Standing.down {key : Key} {level level' : Nat} {A B : List (Entry Key Value)}
    (st : Standing c key level A B) (hle : level' ≤ level) : Standing c key level' A B where
  split := st.split
  below := st.below
  tall A' e hA := Nat.le_trans hle (st.tall A' e hA)
  bound := Nat.le_trans hle st.bound

theorem Standing.lastPtr_mem {key : Key} {level : Nat} {A B : List (Entry Key Value)}
    (st : Standing c key level A B) : lastPtr A ∈ headerPtr :: c.entries.map Entry.ptr := by
  have hmem : lastPtr A ∈ headerPtr :: A.map Entry.ptr := List.getLastD_mem_cons
  rw [st.split, List.map_append]
  rcases List.mem_cons.mp hmem with hp | hp
  · exact List.mem_cons.mpr (.inl hp)
  · exact List.mem_cons_of_mem _ (List.mem_append_left _ hp)

/-- The node a descent stands at is the last one of its lane, too. -/
theorem Standing.lane_last {key : Key} {level i : Nat} {A B : List (Entry Key Value)}
    (st : Standing c key level A B) (hi : i < level) :
    (lane i A).getLastD headerPtr = lastPtr A := by
  rcases List.eq_nil_or_concat' A with rfl | ⟨A', e, rfl⟩
  · rfl
  · have he : i < e.level := Nat.lt_of_lt_of_le hi (st.tall A' e rfl)
    simp [lastPtr, lane_append, lane_cons_of_lt he]

/-- The link the descent follows leads to the first node behind it that is
tall enough. -/
theorem Standing.next_eq {key : Key} {i : Nat} {A B : List (Entry Key Value)}
    (st : Standing c key (i + 1) A B) (h : Linked l c) :
    nextOf l.heap i (lastPtr A) = (lane i B).head? := by
  have hi : i < MAX_LEVEL := st.bound
  have hchain := h.chain i hi
  rw [st.split, lane_append] at hchain
  rw [← st.lane_last (Nat.lt_succ_self i)]
  exact hchain.next_eq

/-- Moving on to the next node of the lane, whose key is still smaller. -/
theorem Standing.advance {key : Key} {level i : Nat} {A B₁ B₂ : List (Entry Key Value)}
    {f : Entry Key Value} (st : Standing c key level A (B₁ ++ f :: B₂)) (hf : f.key < key)
    (hlevel : i ≤ f.level) (hi : i ≤ MAX_LEVEL) : Standing c key i (A ++ B₁ ++ [f]) B₂ where
  split := by rw [st.split]; simp
  below := by
    have hsorted := c.sorted
    rw [st.split] at hsorted
    have hB := (List.pairwise_append.mp hsorted).2.1
    intro e he
    simp only [List.mem_append, List.mem_singleton] at he
    rcases he with (he | he) | rfl
    · exact st.below e he
    · exact lt_of_le_of_lt ((List.pairwise_append.mp hB).2.2 e he f (by simp)) hf
    · exact hf
  tall := by
    intro A' e hA
    obtain ⟨-, he⟩ := List.append_inj' hA rfl
    exact List.singleton_inj.mp he ▸ hlevel
  bound := hi

omit [LinearOrder Key] in
theorem lastPtr_concat (A B₁ : List (Entry Key Value)) (f : Entry Key Value) :
    lastPtr (A ++ B₁ ++ [f]) = f.ptr := by
  simp [lastPtr]

/-- The keys behind a node of the list are no smaller than its own. -/
theorem Standing.key_le {key : Key} {level : Nat} {A B₁ B₂ : List (Entry Key Value)}
    {f e : Entry Key Value} (st : Standing c key level A (B₁ ++ f :: B₂)) (he : e ∈ B₂) :
    f.key ≤ e.key := by
  have hsorted := c.sorted
  rw [st.split] at hsorted
  have hB := (List.pairwise_append.mp (List.pairwise_append.mp hsorted).2.1).2.1
  exact (List.pairwise_cons.mp hB).1 e he

/-- Stopping on a lane: no node behind is both tall enough and smaller, so the
node stood at is the predecessor on this lane. -/
theorem Standing.predAt_eq {key : Key} {level i : Nat} {A B : List (Entry Key Value)}
    (st : Standing c key level A B) (hi : i < level)
    (hstop : ∀ e ∈ B, i < e.level → ¬ e.key < key) :
    predAt key c.entries i = lastPtr A := by
  have hbefore : before key c.entries = A ++ before key B := by
    rw [before, st.split, List.takeWhile_append_of_pos fun e he => by simpa using st.below e he]
    rfl
  have hlane : lane i (before key B) = [] := by
    refine lane_eq_nil.mpr fun e he => Nat.le_of_not_lt ?_
    intro hlt
    exact hstop e ((List.takeWhile_sublist _).subset he) hlt (key_lt_of_mem_before he)
  rw [predAt, hbefore, lane_append, hlane, List.append_nil, st.lane_last hi]

/-- **The step of a descent.**  On lane `i` either the next node has a smaller
key and the descent can stand there, or the node stood at is the predecessor on
this lane. -/
theorem Standing.step {key : Key} {i : Nat} {A B : List (Entry Key Value)}
    (st : Standing c key (i + 1) A B) (h : Linked l c) :
    (∃ A' B' q, nextOf l.heap i (lastPtr A) = some q ∧ keyBelow l.heap (some q) key = .ok true ∧
      q = lastPtr A' ∧ Standing c key (i + 1) A' B' ∧ B'.length < B.length) ∨
    (keyBelow l.heap (nextOf l.heap i (lastPtr A)) key = .ok false ∧
      predAt key c.entries i = lastPtr A) := by
  have hnext := st.next_eq h
  cases hlane : (lane i B).head? with
  | none =>
      have hnil := lane_eq_nil.mp (List.head?_eq_none_iff.mp hlane)
      refine .inr ⟨by rw [hnext, hlane]; rfl, st.predAt_eq (Nat.lt_succ_self i) ?_⟩
      exact fun e he hlt => absurd hlt (Nat.not_lt.mpr (hnil e he))
  | some q =>
      obtain ⟨B₁, f, B₂, rfl, rfl, hf, hlow⟩ := lane_head hlane
      have hmem : f ∈ c.entries := by rw [st.split]; simp
      have hkey := keyBelow_some (h.entry f hmem) key
      by_cases hlt : f.key < key
      · refine .inl ⟨A ++ B₁ ++ [f], B₂, f.ptr, hnext.trans hlane, by simpa [hlt] using hkey,
          (lastPtr_concat A B₁ f).symm, st.advance hlt hf st.bound, ?_⟩
        simp only [List.length_append, List.length_cons]
        omega
      · refine .inr ⟨by rw [hnext, hlane, hkey, decide_eq_false hlt], ?_⟩
        refine st.predAt_eq (Nat.lt_succ_self i) ?_
        intro e he htall
        rcases List.mem_append.mp he with he | he
        · exact absurd htall (Nat.not_lt.mpr (hlow e he))
        · rcases List.mem_cons.mp he with rfl | he
          · exact hlt
          · exact not_lt_of_ge (le_trans (le_of_not_gt hlt) (st.key_le he))

end Ordered

end Nyctomek
