/-
# `Dns.Name` — domain names as text and on the wire

As text a name is its labels joined by dots; on the wire each label is preceded
by its length, and a zero byte follows the last one.
-/
import Nyctomek.Prog.GoSlice

namespace Nyctomek.Dns

open Prog

/-- `'.'`. -/
def dot : UInt8 := 46

/-- A label as it may stand in a message. -/
structure IsLabel (label : Bytes) : Prop where
  pos : 0 < label.length
  short : label.length ≤ 63
  nonzero : 0 ∉ label

/-- A label whose length fits in its byte, of bytes other than the one that ends a name. -/
structure IsByteLabel (label : Bytes) : Prop where
  pos : 0 < label.length
  short : label.length ≤ 255
  nonzero : 0 ∉ label

/-- The text of a name. -/
def joinDots (labels : List Bytes) : Bytes := [dot].intercalate labels

/-- The text of labels that follow others. -/
def afterDot (labels : List Bytes) : Bytes := labels.flatMap fun label => dot :: label

def encodeLabel (label : Bytes) : Bytes := UInt8.ofNat label.length :: label

def encodeLabels (labels : List Bytes) : Bytes := labels.flatMap encodeLabel

section
variable {label : Bytes} {labels labels' : List Bytes}

theorem joinDots_cons : joinDots (label :: labels) = label ++ afterDot labels := by
  induction labels generalizing label with
  | nil => simp [joinDots, afterDot]
  | cons label' labels ih =>
      rw [joinDots, List.intercalate_cons_cons, ← joinDots, ih]
      simp [afterDot]

@[simp] theorem afterDot_nil : afterDot [] = [] := rfl

@[simp] theorem afterDot_cons :
    afterDot (label :: labels) = dot :: (label ++ afterDot labels) := by
  simp [afterDot]

@[simp] theorem afterDot_append :
    afterDot (labels ++ labels') = afterDot labels ++ afterDot labels' := by
  simp [afterDot]

@[simp] theorem encodeLabels_nil : encodeLabels [] = [] := rfl

@[simp] theorem encodeLabels_cons :
    encodeLabels (label :: labels) = encodeLabel label ++ encodeLabels labels := by
  simp [encodeLabels]

@[simp] theorem length_encodeLabel : (encodeLabel label).length = label.length + 1 := rfl

/-- A dot takes the place of a length. -/
theorem length_afterDot : (afterDot labels).length = (encodeLabels labels).length := by
  simp [afterDot, encodeLabels, encodeLabel]

theorem IsLabel.isByteLabel (h : IsLabel label) : IsByteLabel label where
  pos := h.pos
  short := Nat.le_trans h.short (by decide)
  nonzero := h.nonzero

/-- The length of a label survives as a byte. -/
theorem IsByteLabel.toNat_length (h : IsByteLabel label) :
    (UInt8.ofNat label.length).toNat = label.length := by
  have hshort := h.short
  rw [UInt8.toNat_ofNat']
  omega

theorem IsByteLabel.length_ne_zero (h : IsByteLabel label) : UInt8.ofNat label.length ≠ 0 := by
  have hpos := h.pos
  intro hzero
  have hlen := h.toNat_length
  rw [hzero] at hlen
  exact absurd hlen (by simp; omega)

/-- No zero byte stands in encoded labels. -/
theorem zero_notMem_encodeLabels (h : ∀ label ∈ labels, IsByteLabel label) :
    0 ∉ encodeLabels labels := by
  intro hmem
  obtain ⟨label, hlabel, hzero⟩ := List.mem_flatMap.mp hmem
  rcases List.mem_cons.mp hzero with heq | hzero
  · exact (h label hlabel).length_ne_zero heq.symm
  · exact (h label hlabel).nonzero hzero

end

end Nyctomek.Dns
