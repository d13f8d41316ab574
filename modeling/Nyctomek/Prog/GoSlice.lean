/-
# `Prog.GoSlice` — byte slices that panic

Go checks every index and every reslicing at run time and panics outside the
bounds; the operations here return the panic.  `BigEndian` is the part of
`encoding/binary` for 16- and 32-bit words, with the round trips between
appending a word and reading it.
-/
import Mathlib.Algebra.Group.Nat.Defs
import Nyctomek.Prog.Bytes
import Nyctomek.Prog.Loop

namespace Prog

/-- How a slice operation goes wrong, at which bound, for which length. -/
inductive Panic where
  | indexOutOfRange (index length : Nat)
  | sliceOutOfRange (low length : Nat)
  deriving DecidableEq, Repr

namespace Bytes

/-- `b[i]`. -/
def index (b : Bytes) (i : Nat) : Except Panic UInt8 :=
  match b[i]? with
  | some v => .ok v
  | none => .error (.indexOutOfRange i b.length)

/-- `b[i] = v`. -/
def setIndex (b : Bytes) (i : Nat) (v : UInt8) : Except Panic Bytes :=
  if i < b.length then .ok (b.set i v) else .error (.indexOutOfRange i b.length)

/-- `b[low:]`. -/
def sliceFrom (b : Bytes) (low : Nat) : Except Panic Bytes :=
  if low ≤ b.length then .ok (b.drop low) else .error (.sliceOutOfRange low b.length)

/-- `b[:high]`, for a slice with no room behind its length. -/
def sliceTo (b : Bytes) (high : Nat) : Except Panic Bytes :=
  if high ≤ b.length then .ok (b.take high) else .error (.sliceOutOfRange high b.length)

/-- From position `p` on, `b` reads `bs`. -/
def At (b : Bytes) : Nat → Bytes → Prop
  | _, [] => True
  | p, v :: vs => b[p]? = some v ∧ At b (p + 1) vs

instance decidableAt (b : Bytes) : ∀ p vs, Decidable (At b p vs)
  | _, [] => .isTrue trivial
  | p, v :: vs =>
      have := decidableAt b (p + 1) vs
      inferInstanceAs (Decidable (b[p]? = some v ∧ At b (p + 1) vs))

variable {b : Bytes} {i p : Nat} {vs ws : Bytes}

theorem at_append : ∀ {p : Nat} {vs ws : Bytes},
    At b p (vs ++ ws) ↔ At b p vs ∧ At b (p + vs.length) ws
  | p, [], ws => by simp [At]
  | p, v :: vs, ws => by
      have ih : At b (p + 1) (vs ++ ws) ↔ At b (p + 1) vs ∧ At b (p + 1 + vs.length) ws := at_append
      have hpos : p + (v :: vs).length = p + 1 + vs.length := by
        rw [List.length_cons]
        omega
      rw [List.cons_append, At, At, ih, hpos, and_assoc]

/-- What was put between a prefix and a suffix stands there. -/
theorem at_middle : ∀ (pre vs suf : Bytes), At (pre ++ (vs ++ suf)) pre.length vs
  | _, [], _ => trivial
  | pre, v :: vs, suf => by
      have ih := at_middle (pre ++ [v]) vs suf
      simp only [List.append_assoc, List.singleton_append, List.length_append,
        List.length_singleton] at ih
      exact ⟨by simp, by simpa using ih⟩

/-- Of a slice in three parts the middle one stands behind the first. -/
theorem at_of_split (pre suf : Bytes) (hb : pre ++ (vs ++ suf) = b) (hp : pre.length = p) :
    At b p vs := by
  subst hb hp
  exact at_middle pre vs suf

/-- What stands in a slice ends before its end. -/
theorem At.length_le (h : At b p vs) (hvs : vs ≠ []) : p + vs.length ≤ b.length := by
  induction vs generalizing p with
  | nil => exact absurd rfl hvs
  | cons v vs ih =>
      obtain ⟨hv, hvs⟩ := h
      obtain ⟨hp, -⟩ := List.getElem?_eq_some_iff.mp hv
      rw [List.length_cons]
      cases vs with
      | nil => exact hp
      | cons w vs =>
          have hle := ih hvs (by simp)
          omega

/-- Each byte of what stands in a slice stands at its place. -/
theorem At.getElem? {v : UInt8} (h : At b p vs) (hv : vs[i]? = some v) : b[p + i]? = some v := by
  induction vs generalizing p i with
  | nil => cases hv
  | cons w vs ih =>
      obtain ⟨hw, hvs⟩ := h
      cases i with
      | zero => exact hw.trans hv
      | succ i =>
          rw [Nat.add_comm i 1, ← Nat.add_assoc]
          exact ih hvs hv

/-- From where `vs` stands on, a slice begins with it. -/
theorem At.drop_eq (h : At b p vs) : b.drop p = vs ++ b.drop (p + vs.length) := by
  induction vs generalizing p with
  | nil => rfl
  | cons v vs ih =>
      obtain ⟨hv, hvs⟩ := h
      obtain ⟨hp, hv⟩ := List.getElem?_eq_some_iff.mp hv
      have hpos : p + (v :: vs).length = p + 1 + vs.length := by
        rw [List.length_cons]
        omega
      rw [List.drop_eq_getElem_cons hp, hv, ih hvs, hpos, List.cons_append]

theorem at_drop {q : Nat} : ∀ {p : Nat} {vs : Bytes}, At (b.drop q) p vs ↔ At b (q + p) vs
  | _, [] => Iff.rfl
  | p, v :: vs => by
      have ih : At (b.drop q) (p + 1) vs ↔ At b (q + (p + 1)) vs := at_drop
      rw [At, At, List.getElem?_drop, ih, Nat.add_assoc]

theorem index_eq_ok {v : UInt8} : b.index i = .ok v ↔ b[i]? = some v := by
  unfold index
  cases b[i]? <;> simp

theorem index_of_none (h : b[i]? = none) : b.index i = .error (.indexOutOfRange i b.length) := by
  simp only [index, h]

theorem setIndex_of_lt (h : i < b.length) (v : UInt8) : b.setIndex i v = .ok (b.set i v) :=
  if_pos h

theorem setIndex_of_le (h : b.length ≤ i) (v : UInt8) :
    b.setIndex i v = .error (.indexOutOfRange i b.length) :=
  if_neg (Nat.not_lt.mpr h)

theorem sliceFrom_of_le (h : p ≤ b.length) : b.sliceFrom p = .ok (b.drop p) :=
  if_pos h

theorem sliceFrom_eq_ok {rest : Bytes} (h : b.sliceFrom p = .ok rest) :
    p ≤ b.length ∧ rest = b.drop p := by
  unfold sliceFrom at h
  split at h
  · next hp => exact ⟨hp, (Except.ok.inj h).symm⟩
  · cases h

theorem sliceFrom_append (pre rest : Bytes) :
    Bytes.sliceFrom (pre ++ rest) pre.length = .ok rest := by
  simp [sliceFrom]

end Bytes

/-! ## Big-endian words -/

namespace BigEndian

/-- `binary.BigEndian.AppendUint16`. -/
def appendUint16 (b : Bytes) (v : UInt16) : Bytes :=
  b ++ [(v >>> 8).toUInt8, v.toUInt8]

/-- `binary.BigEndian.Uint16`. -/
def uint16 (b : Bytes) : Except Panic UInt16 := do
  let b1 ← b.index 1
  let b0 ← b.index 0
  .ok (b1.toUInt16 ||| b0.toUInt16 <<< 8)

/-- `binary.BigEndian.Uint16(b[low:])`. -/
def uint16At (b : Bytes) (low : Nat) : Except Panic UInt16 := do
  let rest ← b.sliceFrom low
  uint16 rest

/-- `binary.BigEndian.AppendUint32`. -/
def appendUint32 (b : Bytes) (v : UInt32) : Bytes :=
  b ++ [(v >>> 24).toUInt8, (v >>> 16).toUInt8, (v >>> 8).toUInt8, v.toUInt8]

/-- `binary.BigEndian.Uint32`. -/
def uint32 (b : Bytes) : Except Panic UInt32 := do
  let b3 ← b.index 3
  let b2 ← b.index 2
  let b1 ← b.index 1
  let b0 ← b.index 0
  .ok (b3.toUInt32 ||| b2.toUInt32 <<< 8 ||| b1.toUInt32 <<< 16 ||| b0.toUInt32 <<< 24)

/-- `binary.BigEndian.Uint32(b[low:])`. -/
def uint32At (b : Bytes) (low : Nat) : Except Panic UInt32 := do
  let rest ← b.sliceFrom low
  uint32 rest

/-- Bits set above those of `a` add up with it. -/
theorem or_shiftLeft {a b k : Nat} (h : a < 2 ^ k) : a ||| b <<< k = a + b * 2 ^ k := by
  rw [Nat.or_comm, ← Nat.shiftLeft_add_eq_or_of_lt h, Nat.shiftLeft_eq, Nat.add_comm]

theorem joinUint16 (v : UInt16) :
    v.toUInt8.toUInt16 ||| (v >>> 8).toUInt8.toUInt16 <<< 8 = v := by
  have hv : v.toNat < 65536 := v.toNat_lt
  apply UInt16.toNat_inj.mp
  simp only [UInt16.toNat_or, UInt16.toNat_shiftLeft, UInt8.toNat_toUInt16, UInt16.toNat_toUInt8,
    UInt16.toNat_shiftRight, UInt16.reduceToNat, Nat.reduceMod, Nat.reducePow]
  have hhigh : (v.toNat >>> 8 % 256) <<< 8 < 65536 := by
    rw [Nat.shiftLeft_eq]
    omega
  rw [Nat.mod_eq_of_lt hhigh, or_shiftLeft (by omega), Nat.shiftRight_eq_div_pow]
  omega

theorem joinUint32 (v : UInt32) :
    v.toUInt8.toUInt32 ||| (v >>> 8).toUInt8.toUInt32 <<< 8 ||| (v >>> 16).toUInt8.toUInt32 <<< 16
      ||| (v >>> 24).toUInt8.toUInt32 <<< 24 = v := by
  have hv : v.toNat < 4294967296 := v.toNat_lt
  have hbyte : ∀ k i : Nat, k ≤ 24 → (i % 256) <<< k < 4294967296 := fun k i hk => by
    have hpow : 2 ^ k ≤ 2 ^ 24 := Nat.pow_le_pow_right (by decide) hk
    have hlt : i % 256 < 256 := Nat.mod_lt _ (by decide)
    rw [Nat.shiftLeft_eq]
    exact Nat.lt_of_lt_of_le (Nat.mul_lt_mul_of_lt_of_le hlt hpow (by decide)) (by decide)
  apply UInt32.toNat_inj.mp
  simp only [UInt32.toNat_or, UInt32.toNat_shiftLeft, UInt8.toNat_toUInt32, UInt32.toNat_toUInt8,
    UInt32.toNat_shiftRight, UInt32.reduceToNat, Nat.reduceMod, Nat.reducePow]
  rw [Nat.mod_eq_of_lt (hbyte 8 _ (by decide)), Nat.mod_eq_of_lt (hbyte 16 _ (by decide)),
    Nat.mod_eq_of_lt (hbyte 24 _ (by decide))]
  simp only [Nat.shiftRight_eq_div_pow]
  rw [or_shiftLeft (k := 8) (by omega), or_shiftLeft (k := 16) (by omega),
    or_shiftLeft (k := 24) (by omega)]
  omega

/-- A word at the front of a slice is read back. -/
theorem uint16_append (v : UInt16) (rest : Bytes) :
    uint16 (appendUint16 [] v ++ rest) = .ok v := by
  have hread : uint16 (appendUint16 [] v ++ rest)
      = .ok (v.toUInt8.toUInt16 ||| (v >>> 8).toUInt8.toUInt16 <<< 8) := rfl
  rw [hread, joinUint16]

/-- A word behind a prefix is read back at the prefix's length. -/
theorem uint16At_append (pre : Bytes) (v : UInt16) (rest : Bytes) :
    uint16At (appendUint16 pre v ++ rest) pre.length = .ok v := by
  have hsplit : appendUint16 pre v ++ rest = pre ++ (appendUint16 [] v ++ rest) := by
    simp [appendUint16]
  rw [uint16At, hsplit, Bytes.sliceFrom_append]
  exact uint16_append v rest

/-- Appending words extends a slice, two bytes for each. -/
theorem foldl_appendUint16 (vs : List UInt16) (pre : Bytes) :
    ∃ rest, vs.foldl appendUint16 pre = pre ++ rest ∧ rest.length = 2 * vs.length := by
  induction vs generalizing pre with
  | nil => exact ⟨[], by simp⟩
  | cons v vs ih =>
      obtain ⟨rest, hrest, hlen⟩ := ih (appendUint16 pre v)
      refine ⟨appendUint16 [] v ++ rest, ?_, ?_⟩
      · rw [List.foldl_cons, hrest]
        simp [appendUint16]
      · simp [appendUint16, hlen]
        omega

/-- **Words appended one after the other** are read back at the even offsets. -/
theorem uint16At_foldl {vs : List UInt16} {i : Nat} {v : UInt16} (h : vs[i]? = some v) :
    uint16At (vs.foldl appendUint16 []) (2 * i) = .ok v := by
  obtain ⟨hi, hv⟩ := List.getElem?_eq_some_iff.mp h
  have hvs : vs = vs.take i ++ v :: vs.drop (i + 1) := by
    rw [← hv, List.getElem_cons_drop, List.take_append_drop]
  obtain ⟨pre, hpre, hlen⟩ := foldl_appendUint16 (vs.take i) []
  obtain ⟨rest, hrest, -⟩ := foldl_appendUint16 (vs.drop (i + 1)) (appendUint16 pre v)
  have hpos : 2 * i = pre.length := by
    rw [hlen, List.length_take]
    omega
  rw [hvs, List.foldl_append, List.foldl_cons, hpre, List.nil_append, hrest, hpos]
  exact uint16At_append pre v rest

/-- The number that two bytes write. -/
def word (b : Bytes) (i : Nat) : Nat := (b.getD i 0).toNat * 256 + (b.getD (i + 1) 0).toNat

/-- Inside a slice a word is read as the number that its two bytes write. -/
theorem uint16At_word {b : Bytes} {p : Nat} (h : p + 2 ≤ b.length) :
    ∃ v, uint16At b p = .ok v ∧ v.toNat = word b p := by
  obtain ⟨b0, h0⟩ : ∃ b0, b[p]? = some b0 := ⟨_, List.getElem?_eq_getElem (by omega)⟩
  obtain ⟨b1, h1⟩ : ∃ b1, b[p + 1]? = some b1 := ⟨_, List.getElem?_eq_getElem (by omega)⟩
  have hread : uint16At b p = .ok (b1.toUInt16 ||| b0.toUInt16 <<< 8) := by
    rw [uint16At, Bytes.sliceFrom_of_le (by omega), ok_bind, uint16,
      Bytes.index_eq_ok.mpr (by rw [List.getElem?_drop]; exact h1), ok_bind,
      Bytes.index_eq_ok.mpr (by rw [List.getElem?_drop]; exact h0), ok_bind]
  have hlow : b1.toNat < 2 ^ 8 := b1.toNat_lt
  have hhigh : b0.toNat < 2 ^ 8 := b0.toNat_lt
  have hshift : b0.toNat <<< 8 < 65536 := by
    rw [Nat.shiftLeft_eq]
    omega
  refine ⟨_, hread, ?_⟩
  simp only [UInt16.toNat_or, UInt16.toNat_shiftLeft, UInt8.toNat_toUInt16, UInt16.reduceToNat,
    Nat.reduceMod, Nat.reducePow]
  rw [Nat.mod_eq_of_lt hshift, or_shiftLeft hlow, word, List.getD_eq_getElem?_getD,
    List.getD_eq_getElem?_getD, h0, h1, Option.getD_some, Option.getD_some]
  omega

/-- Inside a slice there is a word to read. -/
theorem exists_uint16At {b : Bytes} {p : Nat} (h : p + 2 ≤ b.length) :
    ∃ v, uint16At b p = .ok v := by
  obtain ⟨v, hv, -⟩ := uint16At_word h
  exact ⟨v, hv⟩

/-- A word that is read stands inside the slice. -/
theorem le_of_uint16At {b : Bytes} {p : Nat} {v : UInt16} (h : uint16At b p = .ok v) :
    p + 2 ≤ b.length := by
  obtain ⟨rest, hrest, h⟩ := bind_eq_ok h
  obtain ⟨b1, hb1, -⟩ := bind_eq_ok h
  obtain ⟨hlt, -⟩ := List.getElem?_eq_some_iff.mp (Bytes.index_eq_ok.mp hb1)
  obtain ⟨hp, rfl⟩ := Bytes.sliceFrom_eq_ok hrest
  rw [List.length_drop] at hlt
  omega

theorem word_of_uint16At {b : Bytes} {p : Nat} {v : UInt16} (h : uint16At b p = .ok v) :
    v.toNat = word b p := by
  obtain ⟨v', hv', hword⟩ := uint16At_word (le_of_uint16At h)
  rw [h] at hv'
  rw [Except.ok.inj hv', hword]

theorem word_drop (b : Bytes) (p i : Nat) : word (b.drop p) i = word b (p + i) := by
  simp only [word, List.getD_eq_getElem?_getD, List.getElem?_drop, Nat.add_assoc]

/-- A word is read where it stands. -/
theorem uint16At_of_at {b : Bytes} {p : Nat} {v : UInt16} (h : b.At p (appendUint16 [] v)) :
    uint16At b p = .ok v := by
  have hle : p ≤ b.length := Nat.le_of_add_right_le (h.length_le (by simp [appendUint16]))
  rw [uint16At, Bytes.sliceFrom_of_le hle, ok_bind, h.drop_eq]
  exact uint16_append v _

theorem uint32At_of_at {b : Bytes} {p : Nat} {v : UInt32} (h : b.At p (appendUint32 [] v)) :
    uint32At b p = .ok v := by
  have hle : p ≤ b.length := Nat.le_of_add_right_le (h.length_le (by simp [appendUint32]))
  rw [uint32At, Bytes.sliceFrom_of_le hle, ok_bind, h.drop_eq]
  have hread : ∀ rest, uint32 (appendUint32 [] v ++ rest)
      = .ok (v.toUInt8.toUInt32 ||| (v >>> 8).toUInt8.toUInt32 <<< 8
        ||| (v >>> 16).toUInt8.toUInt32 <<< 16 ||| (v >>> 24).toUInt8.toUInt32 <<< 24) :=
    fun _ => rfl
  rw [hread, joinUint32]

theorem exists_uint32At {b : Bytes} {p : Nat} (h : p + 4 ≤ b.length) : ∃ v, uint32At b p = .ok v := by
  have hbyte : ∀ i, i < 4 → ∃ v, Bytes.index (b.drop p) i = .ok v := by
    intro i hi
    have hlt : i < (b.drop p).length := by
      rw [List.length_drop]
      omega
    exact ⟨_, Bytes.index_eq_ok.mpr (List.getElem?_eq_getElem hlt)⟩
  obtain ⟨b0, h0⟩ := hbyte 0 (by decide)
  obtain ⟨b1, h1⟩ := hbyte 1 (by decide)
  obtain ⟨b2, h2⟩ := hbyte 2 (by decide)
  obtain ⟨b3, h3⟩ := hbyte 3 (by decide)
  rw [uint32At, Bytes.sliceFrom_of_le (by omega), ok_bind, uint32, h3, ok_bind, h2, ok_bind, h1,
    ok_bind, h0, ok_bind]
  exact ⟨_, rfl⟩

end BigEndian

end Prog
