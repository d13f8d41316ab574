/-
# `Prog.Bytes` — byte strings

Byte strings compare as `std::string` does, lexicographically by unsigned byte.  What
`find` finds in one cuts it in two.
-/
import Mathlib.Data.List.Lex

namespace Prog

abbrev Bytes := List UInt8

/-- The bytes of an ASCII text. -/
def ascii (s : String) : Bytes := s.toList.map fun c => UInt8.ofNat c.toNat

instance linearOrderUInt8 : LinearOrder UInt8 where
  le_refl := UInt8.le_refl
  le_trans _ _ _ := UInt8.le_trans
  le_antisymm _ _ := UInt8.le_antisymm
  le_total := UInt8.le_total
  lt_iff_le_not_ge a b := by
    simp only [UInt8.lt_iff_toNat_lt, UInt8.le_iff_toNat_le]
    omega
  toDecidableLE := inferInstance

/-! ## The first occurrence of a byte -/

variable {c : UInt8} {bytes left : Bytes}

theorem findIdx?_append_cons (h : c ∉ left) (right : Bytes) :
    (left ++ c :: right).findIdx? (· == c) = some left.length := by
  rw [List.findIdx?_append, List.findIdx?_eq_none_iff.mpr, Option.none_or, List.findIdx?_cons]
  · simp
  · intro b hb
    simp only [beq_eq_false_iff_ne]
    rintro rfl
    exact h hb

theorem eq_append_cons_of_findIdx? {i : Nat} (h : bytes.findIdx? (· == c) = some i) :
    bytes = bytes.take i ++ c :: bytes.drop (i + 1) ∧ i < bytes.length := by
  obtain ⟨hi, hc, -⟩ := List.findIdx?_eq_some_iff_getElem.mp h
  refine ⟨?_, hi⟩
  rw [← eq_of_beq hc, List.getElem_cons_drop, List.take_append_drop]

end Prog
