/-
# `Prog.LinkedList` — singly linked lists on a heap

A node has an item and a pointer to the next node, null in the last one.  `Linked h p cells`
says that from `p` one comes through the nodes at the addresses of `cells`, with their items,
and then to the null pointer.  Where a list starts decides the list (`Linked.unique`), so that
no address comes twice in it.

    add at the tail       the old tail is redirected to a fresh node     `Linked.append`
    change other cells    the list stays                                  `Linked.congr`
-/
import Mathlib.Data.List.Nodup
import Nyctomek.Prog.Heap

namespace Prog

structure Node (α : Type) where
  item : α
  next : Option Ptr
  deriving DecidableEq, Repr

variable {α : Type}

/-- From `p` on the heap has the cells, one node after the other, and nothing behind them. -/
def Linked (h : Heap (Node α)) : Option Ptr → List (Ptr × α) → Prop
  | p, [] => p = none
  | p, c :: cells => p = some c.1 ∧ ∃ next, h.read c.1 = some ⟨c.2, next⟩ ∧ Linked h next cells

variable {h h' : Heap (Node α)} {p : Option Ptr} {c : Ptr × α} {cells cells' : List (Ptr × α)}

theorem Linked.unique (hcells : Linked h p cells) (hcells' : Linked h p cells') :
    cells = cells' := by
  induction cells generalizing p cells' with
  | nil =>
      cases cells' with
      | nil => rfl
      | cons c' cells' =>
          rw [show p = none from hcells] at hcells'
          cases hcells'.1
  | cons c cells ih =>
      obtain ⟨rfl, next, hread, hrest⟩ := hcells
      cases cells' with
      | nil => cases hcells'
      | cons c' cells' =>
          obtain ⟨hp, next', hread', hrest'⟩ := hcells'
          rw [← Option.some.inj hp, hread] at hread'
          obtain ⟨hitem, rfl⟩ := Node.mk.inj (Option.some.inj hread')
          rw [Prod.ext (Option.some.inj hp) hitem, ih hrest hrest']

theorem Linked.head_eq (hcells : Linked h p cells) : p = cells.head?.map Prod.fst := by
  cases cells with
  | nil => exact hcells
  | cons c cells => exact hcells.1

/-- Any node of a list starts a list. -/
theorem Linked.drop : ∀ {front : List (Ptr × α)} {p : Option Ptr},
    Linked h p (front ++ cells) → ∃ q, Linked h q cells
  | [], p, hcells => ⟨p, hcells⟩
  | _ :: _, _, ⟨_, _, _, hrest⟩ => hrest.drop

/-- No address comes twice. -/
theorem Linked.nodup (hcells : Linked h p cells) : (cells.map Prod.fst).Nodup := by
  induction cells generalizing p with
  | nil => exact List.nodup_nil
  | cons c cells ih =>
      have hwhole := hcells
      obtain ⟨hp, next, -, hrest⟩ := hcells
      rw [List.map_cons, List.nodup_cons]
      refine ⟨?_, ih hrest⟩
      intro hmem
      obtain ⟨c', hc', haddress⟩ := List.mem_map.mp hmem
      obtain ⟨front, back, hsplit⟩ := List.append_of_mem hc'
      obtain ⟨q, hback⟩ := Linked.drop (hsplit ▸ hrest)
      have hq : q = p := by rw [hback.1, haddress, hp]
      rw [hq] at hback
      have hlength := congrArg List.length (hback.unique hwhole)
      rw [hsplit, List.length_cons, List.length_cons, List.length_append, List.length_cons]
        at hlength
      omega

theorem Linked.read (hcells : Linked h p cells) (hc : c ∈ cells) :
    ∃ next, h.read c.1 = some ⟨c.2, next⟩ := by
  induction cells generalizing p with
  | nil => cases hc
  | cons c' cells ih =>
      obtain ⟨-, next, hread, hrest⟩ := hcells
      rcases List.mem_cons.mp hc with rfl | hmem
      · exact ⟨next, hread⟩
      · exact ih hrest hmem

/-- Other cells of the heap do not matter. -/
theorem Linked.congr (hread : ∀ c ∈ cells, h'.read c.1 = h.read c.1) (hcells : Linked h p cells) :
    Linked h' p cells := by
  induction cells generalizing p with
  | nil => exact hcells
  | cons c cells ih =>
      obtain ⟨hp, next, hc, hrest⟩ := hcells
      refine ⟨hp, next, (hread c List.mem_cons_self).trans hc, ?_⟩
      exact ih (fun c' hc' => hread c' (List.mem_cons_of_mem c hc')) hrest

/-- A heap that has kept the cells has the list. -/
theorem Linked.of_keeps (hcells : Linked h p cells) (hkeeps : h.Keeps h') : Linked h' p cells := by
  refine hcells.congr ?_
  intro c hc
  obtain ⟨next, hread⟩ := hcells.read hc
  exact hkeeps.read c.1 (Heap.read_lt_fresh hread)

/-- The last node has no next one. -/
theorem Linked.read_last (hcells : Linked h p (cells ++ [c])) : h.read c.1 = some ⟨c.2, none⟩ := by
  induction cells generalizing p with
  | nil =>
      obtain ⟨-, next, hread, rfl⟩ := hcells
      exact hread
  | cons c' cells ih =>
      obtain ⟨-, next, -, hrest⟩ := hcells
      exact ih hrest

/-- A fresh node, alone. -/
theorem linked_singleton (h : Heap (Node α)) (x : α) :
    Linked (h.alloc ⟨x, none⟩) (some h.fresh) [(h.fresh, x)] :=
  ⟨rfl, none, Heap.read_alloc_fresh h _, rfl⟩

/-- **A fresh node at the tail**: the last node is redirected to it. -/
theorem Linked.append (hcells : Linked h p (cells ++ [c])) (x : α) :
    Linked ((h.alloc ⟨x, none⟩).write c.1 ⟨c.2, some h.fresh⟩) p
      (cells ++ [c] ++ [(h.fresh, x)]) := by
  have hold : c.1 < h.fresh := Heap.read_lt_fresh hcells.read_last
  have hlt : c.1 < (h.alloc ⟨x, none⟩).fresh := by
    rw [Heap.fresh_alloc]
    exact Nat.lt_succ_of_lt hold
  have hnew : ((h.alloc ⟨x, none⟩).write c.1 ⟨c.2, some h.fresh⟩).read h.fresh
      = some ⟨x, none⟩ := by
    rw [Heap.read_write_of_ne _ _ (Nat.ne_of_gt hold), Heap.read_alloc_fresh]
  have hnodup := hcells.nodup
  induction cells generalizing p with
  | nil =>
      obtain ⟨hp, -⟩ := hcells
      exact ⟨hp, some h.fresh, Heap.read_write_self _ hlt, rfl, none, hnew, rfl⟩
  | cons c' cells ih =>
      rw [List.cons_append, List.map_cons, List.nodup_cons] at hnodup
      obtain ⟨hp, next, hread, hrest⟩ := hcells
      refine ⟨hp, next, ?_, ih hrest hnodup.2⟩
      have hne : c'.1 ≠ c.1 := by
        intro heq
        exact hnodup.1 (heq ▸ List.mem_map_of_mem (List.mem_append_right cells List.mem_cons_self))
      rw [Heap.read_write_of_ne _ _ hne, Heap.read_alloc_of_read _ hread]

end Prog
