/-
# `Prog.Hops` — following a partial function

From a point, `next` leads on as long as it has a value; `hops next n a` is the point that
`n` hops lead to.  Where there are only finitely many points to come to, the way from `a`
has an end exactly if it does not lead into a circle (`circular_iff`).

A loop whose turns follow the way comes to its end with the way (`Ends.of_hops`), and to
none where that is circular (`not_ends_of_circular`).  Its own states are such a way: where
`k` keys tell them apart, the loop ends within `k` turns or never (`loop_within`).
-/
import Mathlib.Data.Fintype.Pigeonhole
import Mathlib.Data.Set.Finite.Basic
import Nyctomek.Prog.Loop

namespace Prog

variable {α : Type} {next : α → Option α} {a b : α} {m n : Nat}

/-- Where one is after `n` hops, if the way is that long. -/
def hops (next : α → Option α) : Nat → α → Option α
  | 0, a => some a
  | n + 1, a => (next a).bind (hops next n)

/-- The way from `a` leads to a point that it comes back to. -/
def Circular (next : α → Option α) (a : α) : Prop :=
  ∃ m n b, hops next m a = some b ∧ hops next (n + 1) b = some b

theorem hops_succ (h : next a = some b) : hops next (n + 1) a = hops next n b := by
  rw [hops, h, Option.bind_some]

theorem hops_add (m n : Nat) (a : α) :
    hops next (m + n) a = (hops next m a).bind (hops next n) := by
  induction m generalizing a with
  | zero => rw [Nat.zero_add, hops, Option.bind_some]
  | succ m ih =>
      rw [Nat.add_right_comm]
      cases h : next a with
      | none => simp only [hops, h, Option.bind_none]
      | some b => rw [hops_succ h, hops_succ h, ih]

theorem hops_one (a : α) : hops next 1 a = next a := by
  rw [hops]
  exact Option.bind_fun_some _

/-- Behind its end there is no way. -/
theorem hops_ne_none_of_le (hle : m ≤ n) (h : hops next n a ≠ none) : hops next m a ≠ none := by
  intro hnone
  obtain ⟨k, rfl⟩ := Nat.exists_eq_add_of_le hle
  rw [hops_add, hnone] at h
  exact h rfl

/-- A way that leads into a circle is as long as one likes. -/
theorem Circular.hops_ne_none (h : Circular next a) (n : Nat) : hops next n a ≠ none := by
  obtain ⟨m, k, b, hm, hk⟩ := h
  have hround : ∀ j, hops next (j * (k + 1)) b = some b := by
    intro j
    induction j with
    | zero => rw [Nat.zero_mul, hops]
    | succ j ih => rw [Nat.succ_mul, hops_add, ih, Option.bind_some, hk]
  have hlong : hops next (m + n * (k + 1)) a ≠ none := by
    rw [hops_add, hm, Option.bind_some, hround]
    exact Option.some_ne_none b
  refine hops_ne_none_of_le ?_ hlong
  exact Nat.le_add_left_of_le (Nat.le_mul_of_pos_right n (Nat.succ_pos k))

/-- Among finitely many points a way without an end comes back to one of them. -/
theorem circular_of_hops_ne_none {S : Set α} (hS : S.Finite) (hnext : ∀ a b, next a = some b → b ∈ S)
    (h : ∀ n, hops next n a ≠ none) : Circular next a := by
  have hpoint : ∀ n, ∃ b, hops next n a = some b := fun n => Option.ne_none_iff_exists'.mp (h n)
  choose point hpoint using hpoint
  have hmem : ∀ n, point (n + 1) ∈ S := by
    intro n
    have hlast := hpoint (n + 1)
    rw [hops_add, hpoint n, Option.bind_some] at hlast
    refine hnext (point n) _ ?_
    cases hn : next (point n) with
    | none => simp [hops, hn] at hlast
    | some b => rwa [hops_succ hn, hops] at hlast
  have : Finite S := hS
  -- two of the points are the same; the later one is a number of hops behind the earlier
  obtain ⟨i, j, hne, heq⟩ :=
    Finite.exists_ne_map_eq_of_infinite fun n => (⟨point (n + 1), hmem n⟩ : S)
  have heq : point (i + 1) = point (j + 1) := congrArg Subtype.val heq
  have hback : ∀ {i j : Nat}, i < j → point (i + 1) = point (j + 1) → Circular next a := by
    intro i j hlt heq
    obtain ⟨k, rfl⟩ := Nat.exists_eq_add_of_lt hlt
    have hindex : i + k + 1 + 1 = i + 1 + (k + 1) := by omega
    have hj := hpoint (i + 1 + (k + 1))
    rw [hops_add, hpoint (i + 1), Option.bind_some, ← hindex, ← heq] at hj
    exact ⟨i + 1, k, point (i + 1), hpoint (i + 1), hj⟩
  rcases Nat.lt_or_gt_of_ne hne with hlt | hgt
  · exact hback hlt heq
  · exact hback hgt heq.symm

theorem circular_iff {S : Set α} (hS : S.Finite) (hnext : ∀ a b, next a = some b → b ∈ S) :
    Circular next a ↔ ∀ n, hops next n a ≠ none :=
  ⟨Circular.hops_ne_none, circular_of_hops_ne_none hS hnext⟩

/-- Up to its last point a way is as long as it is. -/
theorem exists_last_of_hops_eq_none (h : hops next n a = none) :
    ∃ m b, hops next m a = some b ∧ next b = none := by
  induction n generalizing a with
  | zero => exact absurd h (Option.some_ne_none a)
  | succ n ih =>
      cases ha : next a with
      | none => exact ⟨0, a, rfl, ha⟩
      | some b =>
          rw [hops_succ ha] at h
          obtain ⟨m, c, hm, hc⟩ := ih h
          exact ⟨m + 1, c, (hops_succ ha).trans hm, hc⟩

/-- A way that always leads upwards does not come back. -/
theorem not_circular_of_lt [Preorder α]
    (h : ∀ n b c, hops next n a = some b → next b = some c → b < c) : ¬ Circular next a := by
  rintro ⟨m, k, b, hm, hk⟩
  have hup : ∀ n c, hops next (n + 1) b = some c → b < c := by
    intro n
    induction n with
    | zero =>
        intro c hc
        rw [hops_one] at hc
        exact h m b c hm hc
    | succ n ih =>
        intro c hc
        rw [hops_add, Option.bind_eq_some_iff] at hc
        obtain ⟨d, hd, hc⟩ := hc
        rw [hops_one] at hc
        refine (ih d hd).trans (h (m + (n + 1)) d c ?_ hc)
        rw [hops_add, hm, Option.bind_some, hd]
  exact lt_irrefl b (hup k b hk)

/-- What keys tell apart is not passed without coming back, on more hops than there are keys. -/
theorem circular_of_card {κ : Type} [Fintype κ] {key : α → κ} {P : α → Prop}
    (hkeep : ∀ a b, P a → next a = some b → P b)
    (hkey : ∀ a b, P a → P b → key a = key b → a = b) (ha : P a)
    (h : hops next (Fintype.card κ) a ≠ none) : Circular next a := by
  have hpoint : ∀ i : Fin (Fintype.card κ + 1), ∃ b, hops next i a = some b := fun i =>
    Option.ne_none_iff_exists'.mp (hops_ne_none_of_le (Nat.le_of_lt_succ i.isLt) h)
  choose point hpoint using hpoint
  have hall : ∀ n b, hops next n a = some b → P b := by
    intro n
    induction n with
    | zero =>
        intro b hb
        obtain rfl := Option.some.inj hb
        exact ha
    | succ n ih =>
        intro b hb
        rw [hops_add, Option.bind_eq_some_iff] at hb
        obtain ⟨c, hc, hb⟩ := hb
        rw [hops_one] at hb
        exact hkeep c b (ih c hc) hb
  obtain ⟨i, j, hne, heq⟩ :=
    Fintype.exists_ne_map_eq_of_card_lt (fun i => key (point i)) (by simp)
  have hsame : point i = point j := hkey _ _ (hall _ _ (hpoint i)) (hall _ _ (hpoint j)) heq
  have hback : ∀ {i j : Fin (Fintype.card κ + 1)}, i < j → point i = point j → Circular next a := by
    intro i j hlt hsame
    obtain ⟨k, hk⟩ := Nat.exists_eq_add_of_lt (Fin.lt_def.mp hlt)
    have hj := hpoint j
    rw [hk, Nat.add_assoc, hops_add, hpoint i, Option.bind_some, ← hsame] at hj
    exact ⟨i, k, point i, hpoint i, hj⟩
  rcases Nat.lt_or_gt_of_ne (Fin.val_ne_of_ne hne) with hlt | hgt
  · exact hback (Fin.lt_def.mpr hlt) hsame
  · exact hback (Fin.lt_def.mpr hgt) hsame.symm

/-! ## Loops that follow a way -/

section
variable {ε σ ρ : Type} {turn : σ → Except ε (Turn σ ρ)} {R : σ → α → Prop} {s s' : σ}

/-- Where each turn follows the way, a circle is a loop without an end. -/
theorem not_ends_of_circular (hturn : ∀ s a b, R s a → next a = some b →
      ∃ s', turn s = .ok (.again s') ∧ R s' b) (hs : R s a) (h : Circular next a)
    (r : Except ε ρ) : ¬ Ends (fun n => loop turn n s) r := by
  refine not_ends_of_again (I := fun s => ∃ a, R s a ∧ ∀ n, hops next n a ≠ none) ?_
    ⟨a, hs, h.hops_ne_none⟩ r
  rintro s ⟨a, hs, hlong⟩
  have hnext := hlong 1
  rw [hops_one] at hnext
  obtain ⟨b, hb⟩ := Option.ne_none_iff_exists'.mp hnext
  obtain ⟨s', hs', hat⟩ := hturn s a b hs hb
  refine ⟨s', hs', b, hat, ?_⟩
  intro n
  rw [← hops_succ hb]
  exact hlong (n + 1)

/-- Otherwise the loop ends as it does from the last point of the way. -/
theorem Ends.of_hops {Q : α → Except ε ρ → Prop} (hturn : ∀ s a b, R s a → next a = some b →
      ∃ s', turn s = .ok (.again s') ∧ R s' b)
    (hlast : ∀ s a, R s a → next a = none → ∃ r, Ends (fun n => loop turn n s) r ∧ Q a r)
    (hs : R s a) (h : hops next n a = some b) (hb : next b = none) :
    ∃ r, Ends (fun n => loop turn n s) r ∧ Q b r := by
  induction n generalizing s a with
  | zero =>
      obtain rfl := Option.some.inj h
      exact hlast s a hs hb
  | succ n ih =>
      cases ha : next a with
      | none => simp [hops, ha] at h
      | some c =>
          obtain ⟨s', hs', hat⟩ := hturn s a c hs ha
          rw [hops_succ ha] at h
          obtain ⟨r, hr, hQ⟩ := ih hat h
          exact ⟨r, Ends.of_turns (Turns.single hs') hr, hQ⟩

/-- **The end of a loop that follows a way**: there is one, and it is good, exactly if the way is
not circular and the loop ends well from its last point. -/
theorem ends_iff_hops {S : Set α} {Good : Except ε ρ → Prop} {P : α → Prop} (hS : S.Finite)
    (hnext : ∀ a b, next a = some b → b ∈ S)
    (hturn : ∀ s a b, R s a → next a = some b → ∃ s', turn s = .ok (.again s') ∧ R s' b)
    (hlast : ∀ s a, R s a → next a = none →
      ∃ r, Ends (fun n => loop turn n s) r ∧ (Good r ↔ P a)) (hs : R s a) :
    (∃ r, Ends (fun n => loop turn n s) r ∧ Good r) ↔
      ¬ Circular next a ∧ ∀ n b, hops next n a = some b → next b = none → P b := by
  constructor
  · rintro ⟨r, hr, hgood⟩
    refine ⟨fun hcircular => not_ends_of_circular hturn hs hcircular r hr, ?_⟩
    intro n b hn hb
    obtain ⟨r', hr', hiff⟩ := Ends.of_hops hturn hlast hs hn hb
    obtain rfl := hr.unique hr'
    exact hiff.mp hgood
  · rintro ⟨hno, hP⟩
    rw [circular_iff hS hnext, not_forall] at hno
    obtain ⟨n, hn⟩ := hno
    obtain ⟨m, b, hm, hb⟩ := exists_last_of_hops_eq_none (not_not.mp hn)
    obtain ⟨r, hr, hiff⟩ := Ends.of_hops hturn hlast hs hm hb
    exact ⟨r, hr, hiff.mpr (hP m b hm hb)⟩

/-- The state that a turn goes on with. -/
def following (turn : σ → Except ε (Turn σ ρ)) (s : σ) : Option σ :=
  match turn s with
  | .ok (.again s') => some s'
  | _ => none

theorem following_eq_some {s' : σ} : following turn s = some s' ↔ turn s = .ok (.again s') := by
  unfold following
  split
  · rename_i t ht
    rw [ht, Option.some_inj, Except.ok.injEq, Turn.again.injEq]
  · rename_i hother
    exact iff_of_false (Option.some_ne_none s' ·.symm) (hother s')

theorem hops_following (h : after turn n s = .ok (.again s')) :
    hops (following turn) n s = some s' := by
  induction n generalizing s with
  | zero =>
      obtain rfl := Turn.again.inj (Except.ok.inj h)
      rfl
  | succ n ih =>
      rw [after] at h
      split at h
      · rename_i t ht
        rw [hops_succ (following_eq_some.mpr ht)]
        exact ih h
      · rename_i hother
        exact absurd h (hother s')

/-- **Few states**: a loop whose states are told apart by `k` keys ends within `k` turns, if it
ends at all. -/
theorem loop_within {κ : Type} [Fintype κ] (key : σ → κ) {I : σ → Prop} {r : Except ε ρ}
    (hkeep : ∀ s s', I s → turn s = .ok (.again s') → I s')
    (hkey : ∀ s s', I s → I s' → key s = key s' → s = s') (hs : I s)
    (h : Ends (fun n => loop turn n s) r) : loop turn (Fintype.card κ) s = done r := by
  have hmono := loop_mono turn s
  rcases noFuel_or_done (loop turn (Fintype.card κ) s) with hfuel | ⟨r', hdone⟩
  · have hagain : ∃ s', after turn (Fintype.card κ) s = .ok (.again s') := by
      rw [loop_eq_after] at hfuel
      split at hfuel
      · rename_i s' hafter
        exact ⟨s', hafter⟩
      · exact absurd hfuel.symm (noFuel_ne_done _)
      · exact absurd hfuel.symm (noFuel_ne_done _)
    obtain ⟨s', hagain⟩ := hagain
    have hcircular : Circular (following turn) s := by
      refine circular_of_card (P := I) (fun s s' hs hnext => ?_) hkey hs ?_
      · exact hkeep s s' hs (following_eq_some.mp hnext)
      · rw [hops_following hagain]
        exact Option.some_ne_none s'
    refine absurd h (not_ends_of_circular (R := Eq) ?_ rfl hcircular r)
    rintro s _ s' rfl hnext
    exact ⟨s', following_eq_some.mp hnext, rfl⟩
  · rw [hdone, (hmono.ends hdone).unique h]

end

end Prog
