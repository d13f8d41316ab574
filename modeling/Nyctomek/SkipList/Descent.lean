/-
# `SkipList.Descent` — `insert` and `remove` find the same predecessors

The two descents differ in when they write to `previousNodes`: `insert` does it
on every turn and overwrites its own entries as it moves along a lane, `remove`
only on the way down.  Under one invariant, `Descending`, both leave behind the
predecessor of the key on each of the `MAX_LEVEL` lanes (`Found`), after at most
one turn for each level and each node.
-/
import Nyctomek.SkipList.Linked

namespace Nyctomek

open Prog SkipList

variable {Key Value : Type} [LinearOrder Key]
variable {l : SkipList Key Value} {c : Contents Key Value} {key : Key}

/-- What the lanes from `level` up have recorded. -/
def Recorded (c : Contents Key Value) (key : Key) (level : Nat) (prev : Tower) : Prop :=
  ∀ j, level ≤ j → j < MAX_LEVEL → prev.at j = some (predAt key c.entries j)

/-- The invariant of a descent for `key`: it stands behind some entries `A` with
`m` levels and nodes still ahead, and has recorded the lanes it has left. -/
def Descending (c : Contents Key Value) (key : Key) (m : Nat) (d : Descent) : Prop :=
  ∃ A B, Standing c key d.level A B ∧ d.node = lastPtr A ∧ m = d.level + B.length ∧
    Recorded c key d.level d.previousNodes ∧ (d.level = 0 → d.node = predAt key c.entries 0)

/-- What a descent for `key` leaves behind. -/
structure Found (c : Contents Key Value) (key : Key) (d : Descent) : Prop where
  level : d.level = 0
  node : d.node = predAt key c.entries 0
  previous : ∀ j, j < MAX_LEVEL → d.previousNodes.at j = some (predAt key c.entries j)

theorem Descending.start (c : Contents Key Value) (key : Key) :
    Descending c key (MAX_LEVEL + c.entries.length) ⟨headerPtr, MAX_LEVEL, Tower.null⟩ := by
  refine ⟨[], c.entries, Standing.start c key, rfl, rfl, fun j hj hlt => ?_, fun h0 => ?_⟩
  · exact absurd hlt (Nat.not_lt.mpr hj)
  · exact absurd h0 (by decide)

theorem Descending.found {m : Nat} {d : Descent} (hd : Descending c key m d)
    (h0 : d.level = 0) : Found c key d := by
  obtain ⟨-, -, -, -, -, hrec, hnode⟩ := hd
  exact ⟨h0, hnode h0, fun j hj => hrec j (by omega) hj⟩

/-- Moving on along lane `i`: the slot of that lane does not matter yet. -/
theorem Descending.advance {i : Nat} {A' B' : List (Entry Key Value)} {prev prev' : Tower}
    (st : Standing c key (i + 1) A' B') (hrec : Recorded c key (i + 1) prev)
    (hsame : ∀ j, j ≠ i → prev'.at j = prev.at j) :
    Descending c key (i + 1 + B'.length) ⟨lastPtr A', i + 1, prev'⟩ := by
  refine ⟨A', B', st, rfl, rfl, fun j hj hlt => ?_, fun h0 => absurd h0 (Nat.succ_ne_zero i)⟩
  have hne : j ≠ i := Nat.ne_of_gt hj
  exact (hsame j hne).trans (hrec j hj hlt)

/-- Leaving lane `i`: the node stood at is recorded as its predecessor. -/
theorem Descending.leave {i : Nat} {A B : List (Entry Key Value)} {prev prev' : Tower}
    (st : Standing c key (i + 1) A B) (hrec : Recorded c key (i + 1) prev)
    (hpred : predAt key c.entries i = lastPtr A)
    (hat : ∀ j, prev'.at j = if j = i then some (lastPtr A) else prev.at j) :
    Descending c key (i + B.length) ⟨lastPtr A, i, prev'⟩ := by
  refine ⟨A, B, st.down (Nat.le_succ i), rfl, rfl, fun j hj hlt => ?_, fun h0 => ?_⟩
  · rw [hat]
    by_cases hji : j = i
    · rw [if_pos hji, hji, hpred]
    · have hij : i ≤ j := hj
      rw [if_neg hji]
      exact hrec j (by omega) hlt
  · have hi : i = 0 := h0
    exact hi ▸ hpred.symm

/-- **One turn** of either descent: what it reads, and where it goes on. -/
theorem Descending.step (h : Linked l c) {m i : Nat} {node : Ptr} {prev : Tower}
    (hd : Descending c key m ⟨node, i + 1, prev⟩) :
    ∃ prev', prev.set i (some node) = .ok prev' ∧ (∀ j, j ≠ i → prev'.at j = prev.at j) ∧
      sizePred (i + 1) = i ∧ ∃ p, getNext l.heap node i = .ok p ∧
      ((∃ q m', p = some q ∧ keyBelow l.heap (some q) key = .ok true ∧ m' < m ∧
          ∀ prev'' : Tower, (∀ j, j ≠ i → prev''.at j = prev.at j) →
            Descending c key m' ⟨q, i + 1, prev''⟩) ∨
        keyBelow l.heap p key = .ok false ∧ ∃ m', m' < m ∧ Descending c key m' ⟨node, i, prev'⟩) := by
  obtain ⟨A, B, st, hnode, rfl, hrec, -⟩ := hd
  obtain rfl : node = lastPtr A := hnode
  have hi : i < MAX_LEVEL := st.bound
  obtain ⟨prev', hset, hat⟩ := prev.set_of_lt (some (lastPtr A)) hi
  refine ⟨prev', hset, fun j hj => (hat j).trans (if_neg hj),
    sizePred_succ (Nat.lt_trans hi (by decide)), _, getNext_eq (h.allocated st.lastPtr_mem) hi, ?_⟩
  rcases st.step h with ⟨A', B', q, hq, hbelow, rfl, st', hlen⟩ | ⟨hbelow, hat_i⟩
  · refine .inl ⟨lastPtr A', i + 1 + B'.length, hq, hbelow, by simp only; omega, ?_⟩
    intro prev'' hsame
    exact Descending.advance st' hrec hsame
  · exact .inr ⟨hbelow, i + B.length, by simp only; omega, Descending.leave st hrec hat_i hat⟩

theorem insertTurn_ok (h : Linked l c) (m : Nat) (d : Descent) (hd : Descending c key m d) :
    TurnOk (insertTurn l.heap key) (Descending c key)
      (fun r => ∃ d', r = .ok d' ∧ Found c key d') m d := by
  obtain ⟨node, level, prev⟩ := d
  cases level with
  | zero => exact .inr (.inl ⟨_, rfl, _, rfl, hd.found rfl⟩)
  | succ i =>
      obtain ⟨prev', hset, hsame, hpred, p, hget, hstep⟩ := hd.step h
      rcases hstep with ⟨q, m', rfl, hbelow, hm, hgo⟩ | ⟨hbelow, m', hm, hgo⟩
      · refine .inl ⟨⟨q, i + 1, prev'⟩, m', ?_, hgo prev' hsame, hm⟩
        simp only [insertTurn, Nat.succ_ne_zero, if_false, hpred, hset, hget]
        simp only [bind, Except.bind, hbelow]
      · refine .inl ⟨⟨node, i, prev'⟩, m', ?_, hgo, hm⟩
        simp only [insertTurn, Nat.succ_ne_zero, if_false, hpred, hset, hget]
        simp only [bind, Except.bind, hbelow]

theorem removeTurn_ok (h : Linked l c) (m : Nat) (d : Descent) (hd : Descending c key m d) :
    TurnOk (removeTurn l.heap key) (Descending c key)
      (fun r => ∃ d', r = .ok d' ∧ Found c key d') m d := by
  obtain ⟨node, level, prev⟩ := d
  cases level with
  | zero => exact .inr (.inl ⟨_, rfl, _, rfl, hd.found rfl⟩)
  | succ i =>
      obtain ⟨prev', hset, -, hpred, p, hget, hstep⟩ := hd.step h
      rcases hstep with ⟨q, m', rfl, hbelow, hm, hgo⟩ | ⟨hbelow, m', hm, hgo⟩
      · refine .inl ⟨⟨q, i + 1, prev⟩, m', ?_, hgo prev fun _ _ => rfl, hm⟩
        simp only [removeTurn, Nat.succ_ne_zero, if_false, hpred, hget]
        simp only [bind, Except.bind, hbelow]
      · refine .inl ⟨⟨node, i, prev'⟩, m', ?_, hgo, hm⟩
        simp only [removeTurn, Nat.succ_ne_zero, if_false, hpred, hset, hget]
        simp only [bind, Except.bind, hbelow]

/-- Either descent, run on a linked list, finds the predecessors in at most
`MAX_LEVEL + n + 1` turns. -/
theorem descent_found {turn : Descent → Except Fault (Turn Descent Descent)}
    (hturn : ∀ m d, Descending c key m d → TurnOk turn (Descending c key)
      (fun r => ∃ d', r = .ok d' ∧ Found c key d') m d) :
    ∃ d, Found c key d ∧
      Ends (fun fuel => loop turn fuel ⟨headerPtr, MAX_LEVEL, Tower.null⟩) (.ok d) := by
  obtain ⟨r, ⟨d, rfl, hd⟩, hends⟩ := loop_variant_ends hturn (Descending.start c key)
  exact ⟨d, hd, hends⟩

theorem insertDescent_found (h : Linked l c) (key : Key) :
    ∃ d, Found c key d ∧ Ends (fun fuel => l.insertDescent fuel key) (.ok d) := by
  obtain ⟨d, hd, hends⟩ := descent_found (insertTurn_ok h : ∀ m d, Descending c key m d → _)
  refine ⟨d, hd, hends.congr ?_⟩
  intro fuel
  simp only [insertDescent, h.header_eq]
  rfl

theorem removeDescent_found (h : Linked l c) (key : Key) :
    ∃ d, Found c key d ∧ Ends (fun fuel => l.removeDescent fuel key) (.ok d) := by
  obtain ⟨d, hd, hends⟩ := descent_found (removeTurn_ok h : ∀ m d, Descending c key m d → _)
  refine ⟨d, hd, hends.congr ?_⟩
  intro fuel
  simp only [removeDescent, h.header_eq]
  rfl

end Nyctomek
