/-
# `Prog.PartialKey` — comparing by a key that may be missing

Elements are in groups, the groups are in order, and inside a group the keys decide.  An
element without a key, such as a NaN among the floating-point numbers, compares false with
its whole group, so it is incomparable with all of it.

    irreflexive, asymmetric, transitive      always
    incomparability transitive               unless an element without a key meets
                                             two different keys in its group
-/
import Mathlib.Order.RelClasses
import Nyctomek.Prog.StdSort

namespace Prog

variable {α ι κ : Type} [LinearOrder ι] [LinearOrder κ] {group : α → ι} {key : α → Option κ}
  {a b c : α}

/-- By the groups, and in a group by the keys that there are. -/
def KeyLt (group : α → ι) (key : α → Option κ) (a b : α) : Prop :=
  group a < group b ∨ group a = group b ∧ ∃ x ∈ key a, ∃ y ∈ key b, x < y

namespace KeyLt

theorem irrefl (a : α) : ¬KeyLt group key a a := by
  rintro (hlt | ⟨-, x, hx, y, hy, hxy⟩)
  · exact lt_irrefl _ hlt
  · exact hxy.ne (Option.mem_unique hx hy)

theorem trans (hab : KeyLt group key a b) (hbc : KeyLt group key b c) : KeyLt group key a c := by
  rcases hab with hab | ⟨hab, x, hx, y, hy, hxy⟩
  · rcases hbc with hbc | ⟨hbc, -⟩
    · exact .inl (hab.trans hbc)
    · exact .inl (hab.trans_eq hbc)
  · rcases hbc with hbc | ⟨hbc, y', hy', z, hz, hyz⟩
    · exact .inl (hab.trans_lt hbc)
    · obtain rfl := Option.mem_unique hy hy'
      exact .inr ⟨hab.trans hbc, x, hx, z, hz, hxy.trans hyz⟩

instance : IsStrictOrder α (KeyLt group key) where
  irrefl := irrefl
  trans _ _ _ := trans

/-- Incomparable is what is in one group, unless both have keys and these differ. -/
theorem incomparable_iff : ¬KeyLt group key a b ∧ ¬KeyLt group key b a ↔
    group a = group b ∧ ∀ x ∈ key a, ∀ y ∈ key b, x = y := by
  constructor
  · rintro ⟨hab, hba⟩
    rw [KeyLt, not_or] at hab hba
    have hgroup : group a = group b := (not_lt.mp hba.1).antisymm (not_lt.mp hab.1)
    refine ⟨hgroup, ?_⟩
    intro x hx y hy
    refine le_antisymm (not_lt.mp ?_) (not_lt.mp ?_)
    · intro hyx
      exact hba.2 ⟨hgroup.symm, y, hy, x, hx, hyx⟩
    · intro hxy
      exact hab.2 ⟨hgroup, x, hx, y, hy, hxy⟩
  · rintro ⟨hgroup, hkey⟩
    constructor
    · rintro (hlt | ⟨-, x, hx, y, hy, hxy⟩)
      · exact hlt.ne hgroup
      · exact hxy.ne (hkey x hx y hy)
    · rintro (hlt | ⟨-, y, hy, x, hx, hyx⟩)
      · exact hlt.ne hgroup.symm
      · exact hyx.ne' (hkey x hx y hy)

/-- **It is a strict weak order** if and only if in the group of an element without a key
there is at most one key. -/
theorem isStrictWeakOrder_iff : IsStrictWeakOrder α (KeyLt group key) ↔
    ∀ b, key b = none → ∀ a, group a = group b → ∀ c, group c = group b →
      ∀ x ∈ key a, ∀ z ∈ key c, x = z := by
  constructor
  · intro hweak b hb a hab c hcb
    have hmissing : ∀ y, y ∉ key b := by
      rw [hb]
      exact fun _ => Option.not_mem_none _
    have habove : ¬KeyLt group key a b ∧ ¬KeyLt group key b a :=
      incomparable_iff.mpr ⟨hab, fun x _ y hy => absurd hy (hmissing y)⟩
    have hbelow : ¬KeyLt group key b c ∧ ¬KeyLt group key c b :=
      incomparable_iff.mpr ⟨hcb.symm, fun y hy => absurd hy (hmissing y)⟩
    exact (incomparable_iff.mp (hweak.incomp_trans a b c habove hbelow)).2
  · intro hone
    refine { incomp_trans := ?_ }
    intro a b c hab hbc
    obtain ⟨hab, hxy⟩ := incomparable_iff.mp hab
    obtain ⟨hbc, hyz⟩ := incomparable_iff.mp hbc
    refine incomparable_iff.mpr ⟨hab.trans hbc, ?_⟩
    intro x hx z hz
    cases hb : key b with
    | none => exact hone b hb a hab c hbc.symm x hx z hz
    | some y => exact (hxy x hx y hb).trans (hyz y hb z hz)

end KeyLt

/-! ## The other way round, and on a list -/

theorem isStrictWeakOrder_swap {r : α → α → Prop} :
    IsStrictWeakOrder α (Function.swap r) ↔ IsStrictWeakOrder α r := by
  constructor
  · intro hswap
    exact inferInstanceAs (IsStrictWeakOrder α (Function.swap (Function.swap r)))
  · intro hr
    infer_instance

/-- On the elements of a list, this is what `std::sort` asks for. -/
theorem strictWeakOn_iff {less : α → α → Bool} {l : List α} : StrictWeakOn less l ↔
    IsStrictWeakOrder {a // a ∈ l} fun a b => less a.1 b.1 = true := by
  constructor
  · intro hweak
    have hnot : ∀ {a b : α}, a ∈ l → b ∈ l → less a b = true → less b a ≠ true := by
      intro a b ha hb hab hba
      have hself := hweak.trans a ha b hb a ha hab hba
      rw [hweak.irrefl a ha] at hself
      cases hself
    refine { irrefl := ?_, trans := ?_, incomp_trans := ?_ }
    · rintro ⟨a, ha⟩
      rw [hweak.irrefl a ha]
      exact Bool.false_ne_true
    · rintro ⟨a, ha⟩ ⟨b, hb⟩ ⟨c, hc⟩ hab hbc
      exact hweak.trans a ha b hb c hc hab hbc
    · rintro ⟨a, ha⟩ ⟨b, hb⟩ ⟨c, hc⟩ ⟨hab, hba⟩ ⟨hbc, hcb⟩
      constructor
      · intro hac
        exact (hweak.incomparable a ha b hb c hc hac).elim hab hbc
      · intro hca
        exact (hweak.incomparable c hc b hb a ha hca).elim hcb hba
  · intro hweak
    refine ⟨?_, ?_, ?_⟩
    · intro a ha
      exact Bool.eq_false_iff.mpr (hweak.irrefl ⟨a, ha⟩)
    · intro a ha b hb c hc hab hbc
      exact hweak.trans ⟨a, ha⟩ ⟨b, hb⟩ ⟨c, hc⟩ hab hbc
    · intro a ha b hb c hc hac
      by_contra hnot
      rw [not_or] at hnot
      obtain ⟨hab, hbc⟩ := hnot
      -- what comes before `a` comes before `c`, and what `c` comes before `a` comes before
      have hba : less b a ≠ true := fun hba =>
        hbc (hweak.trans ⟨b, hb⟩ ⟨a, ha⟩ ⟨c, hc⟩ hba hac)
      have hcb : less c b ≠ true := fun hcb =>
        hab (hweak.trans ⟨a, ha⟩ ⟨c, hc⟩ ⟨b, hb⟩ hac hcb)
      exact (hweak.incomp_trans ⟨a, ha⟩ ⟨b, hb⟩ ⟨c, hc⟩ ⟨hab, hba⟩ ⟨hbc, hcb⟩).1 hac

end Prog
