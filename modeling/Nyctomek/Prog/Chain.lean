/-
# `Prog.Chain` — singly linked chains

A successor function `next` makes a chain out of a starting point: follow it
until it ends.  `Chain next p xs` says that from `p` one passes exactly through
`xs`, in this order, and then falls off the end; `Path next p xs` says the same
without the end.  The editing rule is the one of pointer code: `Chain.insert`
redirects the link before a new element.
-/
import Mathlib.Data.List.Nodup

namespace Prog

variable {α : Type}

/-- From `p`, `next` leads through `xs` in this order. -/
def Path (next : α → Option α) : α → List α → Prop
  | _, [] => True
  | p, x :: xs => next p = some x ∧ Path next x xs

/-- From `p`, `next` leads through `xs` in this order and then ends. -/
def Chain (next : α → Option α) : α → List α → Prop
  | p, [] => next p = none
  | p, x :: xs => next p = some x ∧ Chain next x xs

variable {next next' : α → Option α} {p q : α} {xs ys : List α}

theorem chain_append : ∀ {p : α} {xs ys : List α},
    Chain next p (xs ++ ys) ↔ Path next p xs ∧ Chain next (xs.getLastD p) ys
  | p, [], ys => by simp [Path]
  | p, x :: xs, ys => by
      have ih : Chain next x (xs ++ ys) ↔ Path next x xs ∧ Chain next (xs.getLastD x) ys :=
        chain_append
      simp only [List.cons_append, Chain, Path, ih, List.getLastD_cons, and_assoc]

/-- The element after a prefix of a chain is the next one of the list. -/
theorem Chain.next_eq (h : Chain next p (xs ++ ys)) :
    next (xs.getLastD p) = ys.head? := by
  have h' := (chain_append.mp h).2
  cases ys with
  | nil => exact h'
  | cons y ys => exact h'.1

theorem Chain.congr : ∀ {p : α} {xs : List α}, (∀ q ∈ p :: xs, next' q = next q) →
    Chain next p xs → Chain next' p xs
  | p, [], hn, h => (hn p (by simp)).trans h
  | p, x :: xs, hn, h =>
      ⟨(hn p (by simp)).trans h.1,
       Chain.congr (fun q hq => hn q (List.mem_cons_of_mem _ hq)) h.2⟩

theorem Path.congr : ∀ {p : α} {xs : List α}, (p :: xs).Nodup →
    (∀ q ∈ p :: xs, q ≠ xs.getLastD p → next' q = next q) →
    Path next p xs → Path next' p xs
  | _, [], _, _, _ => trivial
  | p, x :: xs, hnd, hn, h => by
      have hp : p ≠ (x :: xs).getLastD p := by
        rw [List.getLastD_cons]
        rintro rfl
        exact (List.nodup_cons.mp hnd).1 (List.getLastD_mem_cons)
      refine ⟨(hn p (by simp) hp).trans h.1, ?_⟩
      refine Path.congr (List.nodup_cons.mp hnd).2 (fun q hq hne => ?_) h.2
      exact hn q (List.mem_cons_of_mem _ hq) (by rwa [List.getLastD_cons])

/-- Linking `q` in behind `xs`: it takes over the old successor there. -/
theorem Chain.insert (h : Chain next p (xs ++ ys)) (hnd : (p :: (xs ++ ys)).Nodup)
    (hq : q ∉ p :: (xs ++ ys)) (hself : next' q = next (xs.getLastD p))
    (hlink : next' (xs.getLastD p) = some q)
    (hrest : ∀ r, r ≠ q → r ≠ xs.getLastD p → next' r = next r) :
    Chain next' p (xs ++ q :: ys) := by
  obtain ⟨hpath, hys⟩ := chain_append.mp h
  have hsub : ∀ r ∈ p :: xs, r ≠ q := by
    rintro r hr rfl
    exact hq (by simp at hr ⊢; tauto)
  have hlast : xs.getLastD p ∈ p :: xs := List.getLastD_mem_cons
  have hdisj : ∀ r ∈ ys, r ≠ xs.getLastD p := by
    rintro r hr rfl
    have hnd' : ((p :: xs) ++ ys).Nodup := hnd
    exact (List.disjoint_of_nodup_append hnd') hlast hr
  refine chain_append.mpr ⟨?_, hlink, ?_⟩
  · refine Path.congr ?_ (fun r hr hne => hrest r (hsub r hr) hne) hpath
    exact hnd.sublist (List.Sublist.cons_cons _ (List.sublist_append_left _ _))
  · cases ys with
    | nil => exact hself.trans hys
    | cons y ys =>
        refine ⟨hself.trans hys.1, Chain.congr (fun r hr => ?_) hys.2⟩
        refine hrest r ?_ (hdisj r hr)
        rintro rfl
        exact hq (by simp at hr ⊢; tauto)

end Prog
