/-
# `Benchmark.RandomData` — the records of the benchmark

`populateKVPairs` fills one buffer for keys and one for values, over and over, and copies a
pair of strings out of them each time.

    keyBuffer      keyLength bytes      filled with keyLength - 1 characters and a NUL
    valueBuffer    valueLength bytes    the same: it is given the length of a key

`generateRandomData` takes its length as an `unsigned int`, and seeds `std::rand` with the time
in seconds whenever it is called.
-/
import Nyctomek.Prog.Bytes
import Nyctomek.Prog.ForLoop
import Nyctomek.Prog.Loop
import Nyctomek.Prog.StdSort

namespace Nyctomek.Benchmark

open Prog

inductive Fault where
  | outOfBounds
  | uninitialized
  deriving DecidableEq, Repr

/-- A block of memory; `none` is a byte that has not been written yet. -/
abbrev Buffer := List (Option UInt8)

def Buffer.malloc (size : Nat) : Buffer := List.replicate size none

def Buffer.write (b : Buffer) (i : Nat) (c : UInt8) : Except Fault Buffer :=
  if i < b.length then .ok (b.set i (some c)) else .error .outOfBounds

/-- The string that a pointer to the block is converted to. -/
def Buffer.cString : Buffer → Except Fault Bytes
  | [] => .error .outOfBounds
  | none :: _ => .error .uninitialized
  | some c :: b => if c = 0 then .ok [] else return c :: (← cString b)

/-- `space + (std::rand() % (tilde - space + 1))` -/
def randomChar (r : Nat) : UInt8 := UInt8.ofNat (32 + r % 95)

def fillTurn (rand : Nat → Nat) (index : Nat) (output : Buffer) : Except Fault Buffer :=
  output.write index (randomChar (rand index))

/-- `rand` is the sequence of numbers after the call of `std::srand`. -/
def generateRandomData (rand : Nat → Nat) (output : Buffer) (length : UInt32) :
    Except Fault Buffer := do
  let output ← forUpTo (length - 1).toNat (fillTurn rand) output
  output.write (length - 1).toNat 0

inductive DataOrdering where
  | random
  | sequential
  deriving DecidableEq, Repr

abbrev KVPairs := List (Bytes × Bytes)

structure Population where
  keyBuffer : Buffer
  valueBuffer : Buffer
  kvPairs : KVPairs

/-- The body of the loop. The numbers depend on the seed, and the time is read `2 * count` times
before. -/
def populateTurn (rand : Nat → Nat → Nat) (time : Nat → Nat) (keyLength : UInt64) (count : Nat)
    (s : Population) : Except Fault Population := do
  let keyBuffer ← generateRandomData (rand (time (2 * count))) s.keyBuffer keyLength.toUInt32
  let valueBuffer ←
    generateRandomData (rand (time (2 * count + 1))) s.valueBuffer keyLength.toUInt32
  let key ← keyBuffer.cString
  let value ← valueBuffer.cString
  .ok ⟨keyBuffer, valueBuffer, s.kvPairs ++ [(key, value)]⟩

def keyLess (lhs rhs : Bytes × Bytes) : Bool := decide (lhs.1 < rhs.1)

def populateKVPairs (std : StdSort) (rand : Nat → Nat → Nat) (time : Nat → Nat) (kvPairs : KVPairs)
    (numRecords keyLength valueLength : UInt64) (ordering : DataOrdering) :
    Except Fault KVPairs := do
  let s ← forUpTo numRecords.toNat (populateTurn rand time keyLength)
    ⟨.malloc keyLength.toNat, .malloc valueLength.toNat, kvPairs⟩
  if ordering = .sequential then .ok (std.sort keyLess s.kvPairs) else .ok s.kvPairs

/-! ## One buffer -/

/-- The characters for a sequence of numbers. -/
def randomText (rand : Nat → Nat) (n : Nat) : Bytes :=
  (List.range n).map fun i => randomChar (rand i)

/-- A buffer with some of them in front, and a NUL behind these. -/
def filled (rand : Nat → Nat) (n : Nat) (b : Buffer) : Buffer :=
  (randomText rand n).map some ++ some 0 :: b.drop (n + 1)

section
variable {rand : Nat → Nat} {b : Buffer} {n : Nat} {length : UInt32}

theorem zero_notMem_randomText : 0 ∉ randomText rand n := by
  intro hmem
  obtain ⟨i, -, hi⟩ := List.mem_map.mp hmem
  have hnat := congrArg UInt8.toNat hi
  rw [randomChar, UInt8.toNat_ofNat'] at hnat
  simp only [UInt8.toNat_zero] at hnat
  omega

theorem length_randomText : (randomText rand n).length = n := by
  rw [randomText, List.length_map, List.length_range]

theorem write_of_lt {i : Nat} (h : i < b.length) (c : UInt8) :
    b.write i c = .ok (b.set i (some c)) := if_pos h

theorem write_of_le {i : Nat} (h : b.length ≤ i) (c : UInt8) :
    b.write i c = .error .outOfBounds := if_neg (Nat.not_lt.mpr h)

theorem length_filled (h : n < b.length) : (filled rand n b).length = b.length := by
  rw [filled, List.length_append, List.length_map, length_randomText, List.length_cons,
    List.length_drop]
  omega

theorem cString_append {text : Bytes} (h : 0 ∉ text) (rest : Buffer) :
    Buffer.cString (text.map some ++ some 0 :: rest) = .ok text := by
  induction text with
  | nil => rfl
  | cons c text ih =>
      obtain ⟨hc, htext⟩ := List.ne_and_not_mem_of_not_mem_cons h
      rw [List.map_cons, List.cons_append, Buffer.cString, if_neg hc.symm, ih htext]
      rfl

theorem cString_filled : (filled rand n b).cString = .ok (randomText rand n) :=
  cString_append zero_notMem_randomText _

/-- A byte is written behind the first `n`. -/
theorem set_append_drop {front : Buffer} (hfront : front.length = n) (hn : n < b.length)
    (c : UInt8) : (front ++ b.drop n).set n (some c) = (front ++ [some c]) ++ b.drop (n + 1) := by
  subst hfront
  rw [List.set_append_right _ _ (Nat.le_refl _), Nat.sub_self, List.drop_eq_getElem_cons hn,
    List.set_cons_zero, List.append_assoc, List.singleton_append]

/-- **A buffer that is long enough** is filled with characters, and closed. -/
theorem generateRandomData_eq (h : (length - 1).toNat < b.length) :
    generateRandomData rand b length
      = .ok (filled rand (length - 1).toNat b) := by
  have hturn : ∀ i, i < (length - 1).toNat →
      fillTurn rand i ((randomText rand i).map some ++ b.drop i)
        = .ok ((randomText rand (i + 1)).map some ++ b.drop (i + 1)) := by
    intro i hi
    have hlen : ((randomText rand i).map some).length = i := by
      rw [List.length_map, length_randomText]
    rw [fillTurn, write_of_lt (by rw [List.length_append, List.length_drop]; omega),
      set_append_drop hlen (by omega), randomText, randomText, List.range_succ, List.map_append,
      List.map_append]
    rfl
  have hloop := forUpTo_eq (F := fun i => (randomText rand i).map some ++ b.drop i) hturn
  have hlen : ((randomText rand (length - 1).toNat).map some).length = (length - 1).toNat := by
    rw [List.length_map, length_randomText]
  have hstart : (randomText rand 0).map some ++ b.drop 0 = b := rfl
  rw [hstart] at hloop
  rw [generateRandomData, hloop, ok_bind, write_of_lt, set_append_drop hlen h, List.append_assoc]
  · rfl
  · rw [List.length_append, List.length_drop, hlen]
    omega

/-- **A shorter one** is left at its end. -/
theorem generateRandomData_error (h : b.length ≤ (length - 1).toNat) :
    ∃ e, generateRandomData rand b length = .error e := by
  have hkeeps : ∀ i (s : Buffer), i < b.length → s.length = b.length → ∃ s',
      fillTurn rand i s = .ok s' ∧ s'.length = b.length := by
    intro i s hi hs
    exact ⟨_, write_of_lt (hs ▸ hi) _, by rw [List.length_set, hs]⟩
  rcases Nat.lt_or_eq_of_le h with hlt | heq
  · have hloop : ∃ e, forUpTo (length - 1).toNat (fillTurn rand) b = .error e :=
      forUpTo_error (I := fun _ (s : Buffer) => s.length = b.length) hlt rfl hkeeps
        fun s hs => ⟨_, write_of_le (Nat.le_of_eq hs) _⟩
    obtain ⟨e, he⟩ := hloop
    exact ⟨e, by rw [generateRandomData, he, error_bind]⟩
  · obtain ⟨s, hloop, hs⟩ :=
      forUpTo_invariant (I := fun _ (s : Buffer) => s.length = b.length) rfl
        fun i s (hi : i < (length - 1).toNat) => hkeeps i s (heq ▸ hi)
    exact ⟨.outOfBounds, by
      rw [generateRandomData, hloop, ok_bind, write_of_le (Nat.le_of_eq (hs.trans heq))]⟩

end

/-! ## All records -/

/-- How many characters a key has, and a value. -/
def textLength (keyLength : UInt64) : Nat := (keyLength.toNat - 1) % 4294967296

/-- The first `count` records. -/
def records (rand : Nat → Nat → Nat) (time : Nat → Nat) (n count : Nat) : KVPairs :=
  (List.range count).map fun i =>
    (randomText (rand (time (2 * i))) n, randomText (rand (time (2 * i + 1))) n)

section
variable {rand : Nat → Nat → Nat} {time : Nat → Nat} {kvPairs : KVPairs}
  {keyLength valueLength : UInt64} {count : Nat} {s : Population}

theorem toNat_length (h : keyLength ≠ 0) :
    (keyLength.toUInt32 - 1).toNat = textLength keyLength := by
  have hpos : keyLength.toNat ≠ 0 := fun hzero => h (UInt64.toNat_inj.mp hzero)
  have hone : (1 : UInt32).toNat = 1 := rfl
  rw [textLength, UInt32.toNat_sub, UInt64.toNat_toUInt32, hone]
  omega

/-- The population after `count` turns. -/
structure Populated (rand : Nat → Nat → Nat) (time : Nat → Nat) (kvPairs : KVPairs)
    (keyLength valueLength : UInt64) (count : Nat) (s : Population) : Prop where
  keyBuffer : s.keyBuffer.length = keyLength.toNat
  valueBuffer : s.valueBuffer.length = valueLength.toNat
  kvPairs : s.kvPairs = kvPairs ++ records rand time (textLength keyLength) count

/-- **One turn** adds a record. -/
theorem populateTurn_ok (hkey : keyLength ≠ 0) (hvalue : textLength keyLength < valueLength.toNat)
    (h : Populated rand time kvPairs keyLength valueLength count s) : ∃ s',
    populateTurn rand time keyLength count s = .ok s' ∧
      Populated rand time kvPairs keyLength valueLength (count + 1) s' := by
  have hpos : keyLength.toNat ≠ 0 := fun hzero => hkey (UInt64.toNat_inj.mp hzero)
  have hlt : textLength keyLength < s.keyBuffer.length := by
    rw [h.keyBuffer, textLength]
    omega
  have hlt' : textLength keyLength < s.valueBuffer.length := by rwa [h.valueBuffer]
  have hfill : ∀ (r : Nat → Nat) (b : Buffer), textLength keyLength < b.length →
      generateRandomData r b keyLength.toUInt32 = .ok (filled r (textLength keyLength) b) := by
    intro r b hb
    rw [← toNat_length hkey] at hb ⊢
    exact generateRandomData_eq hb
  refine ⟨⟨filled (rand (time (2 * count))) (textLength keyLength) s.keyBuffer,
    filled (rand (time (2 * count + 1))) (textLength keyLength) s.valueBuffer,
    s.kvPairs ++ [(randomText (rand (time (2 * count))) (textLength keyLength),
      randomText (rand (time (2 * count + 1))) (textLength keyLength))]⟩, ?_, ?_, ?_, ?_⟩
  · rw [populateTurn, hfill _ _ hlt, ok_bind, hfill _ _ hlt', ok_bind, cString_filled, ok_bind,
      cString_filled, ok_bind]
  · exact (length_filled hlt).trans h.keyBuffer
  · exact (length_filled hlt').trans h.valueBuffer
  · rw [h.kvPairs, records, records, List.range_succ, List.map_append, List.append_assoc]
    rfl

/-- The first turn goes wrong with a buffer that is too short. -/
theorem populateTurn_error
    (hshort : keyLength = 0 ∨ valueLength.toNat ≤ textLength keyLength)
    (h : Populated rand time kvPairs keyLength valueLength count s) :
    ∃ e, populateTurn rand time keyLength count s = .error e := by
  by_cases hkey : keyLength = 0
  · subst hkey
    have hlen : s.keyBuffer.length = 0 := h.keyBuffer
    have hwrong : ∃ e, generateRandomData (rand (time (2 * count))) s.keyBuffer
        (UInt64.toUInt32 0) = .error e :=
      generateRandomData_error (hlen ▸ Nat.zero_le _)
    obtain ⟨e, he⟩ := hwrong
    exact ⟨e, by rw [populateTurn, he, error_bind]⟩
  · have hle : s.valueBuffer.length ≤ (keyLength.toUInt32 - 1).toNat := by
      rw [h.valueBuffer, toNat_length hkey]
      exact hshort.resolve_left hkey
    have hwrong : ∃ e, generateRandomData (rand (time (2 * count + 1))) s.valueBuffer
        keyLength.toUInt32 = .error e := generateRandomData_error hle
    obtain ⟨e, he⟩ := hwrong
    cases hfirst : generateRandomData (rand (time (2 * count))) s.keyBuffer keyLength.toUInt32 with
    | error e' => exact ⟨e', by rw [populateTurn, hfirst, error_bind]⟩
    | ok keyBuffer => exact ⟨e, by rw [populateTurn, hfirst, ok_bind, he, error_bind]⟩

end

/-- What `populateKVPairs` is for: the records are added, and with `SEQUENTIAL` all pairs are
sorted by their keys. -/
def Populates (ordering : DataOrdering) (kvPairs added result : KVPairs) : Prop :=
  (ordering = .random → result = kvPairs ++ added) ∧
    (ordering = .sequential → result.Perm (kvPairs ++ added) ∧
      result.Pairwise fun p q => p.1 ≤ q.1)

theorem sorted_populates (std : StdSort) (kvPairs added : KVPairs) :
    Populates .sequential kvPairs added (std.sort keyLess (kvPairs ++ added)) := by
  have horder : StrictWeakOn keyLess (kvPairs ++ added) :=
    strictWeakOn_of_key Prod.fst fun _ _ _ _ => decide_eq_true_iff
  constructor
  · rintro ⟨⟩
  · intro _
    refine ⟨std.perm horder, (std.sorted horder).imp ?_⟩
    intro p q h
    rw [keyLess, decide_eq_false_iff_not, not_lt] at h
    exact h

/-- **When the records can be made**: the value buffer has to be long enough for a key, whatever
a value is to be; no record needs no buffer.  Then keys and values have one length. -/
theorem populateKVPairs_iff (std : StdSort) (rand : Nat → Nat → Nat) (time : Nat → Nat)
    (kvPairs : KVPairs) (numRecords keyLength valueLength : UInt64) (ordering : DataOrdering) :
    (∃ result, populateKVPairs std rand time kvPairs numRecords keyLength valueLength ordering
        = .ok result ∧ Populates ordering kvPairs
          (records rand time (textLength keyLength) numRecords.toNat) result) ↔
      numRecords = 0 ∨ (keyLength ≠ 0 ∧ textLength keyLength < valueLength.toNat) := by
  have hinitial : Populated rand time kvPairs keyLength valueLength 0
      ⟨.malloc keyLength.toNat, .malloc valueLength.toNat, kvPairs⟩ :=
    ⟨List.length_replicate, List.length_replicate, (List.append_nil kvPairs).symm⟩
  have hfinal : ∀ s, forUpTo numRecords.toNat (populateTurn rand time keyLength)
      ⟨.malloc keyLength.toNat, .malloc valueLength.toNat, kvPairs⟩ = .ok s →
      Populated rand time kvPairs keyLength valueLength numRecords.toNat s →
      ∃ result, populateKVPairs std rand time kvPairs numRecords keyLength valueLength ordering
        = .ok result ∧ Populates ordering kvPairs
          (records rand time (textLength keyLength) numRecords.toNat) result := by
    intro s hloop hs
    rw [populateKVPairs, hloop, ok_bind, hs.kvPairs]
    cases ordering with
    | random =>
        refine ⟨_, rfl, fun _ => rfl, ?_⟩
        rintro ⟨⟩
    | sequential => exact ⟨_, rfl, sorted_populates std _ _⟩
  constructor
  · rintro ⟨result, hresult, -⟩
    by_contra hnot
    rw [not_or, not_and_or, not_not, not_lt] at hnot
    have hpos : 0 < numRecords.toNat :=
      Nat.pos_of_ne_zero fun hzero => hnot.1 (UInt64.toNat_inj.mp hzero)
    have hloop : ∃ e, forUpTo numRecords.toNat (populateTurn rand time keyLength)
        ⟨.malloc keyLength.toNat, .malloc valueLength.toNat, kvPairs⟩ = .error e :=
      forUpTo_error (I := Populated rand time kvPairs keyLength valueLength) hpos hinitial
        (fun i _ hi => absurd hi (Nat.not_lt_zero i)) fun s hs => populateTurn_error hnot.2 hs
    obtain ⟨e, he⟩ := hloop
    rw [populateKVPairs, he, error_bind] at hresult
    cases hresult
  · rintro (rfl | ⟨hkey, hvalue⟩)
    · exact hfinal _ rfl hinitial
    · obtain ⟨s, hloop, hs⟩ := forUpTo_invariant hinitial fun i s _ hs =>
        populateTurn_ok hkey hvalue hs
      exact hfinal s hloop hs

/-- **Within one second** all records are the same, and each has its key for a value. -/
theorem records_same {rand : Nat → Nat → Nat} {time : Nat → Nat} {n count t : Nat}
    (h : ∀ i, i < 2 * count → time i = t) :
    records rand time n count
      = List.replicate count (randomText (rand t) n, randomText (rand t) n) := by
  have hsame : ∀ i ∈ List.range count,
      (randomText (rand (time (2 * i))) n, randomText (rand (time (2 * i + 1))) n)
        = (randomText (rand t) n, randomText (rand t) n) := by
    intro i hi
    have hlt := List.mem_range.mp hi
    rw [h (2 * i) (by omega), h (2 * i + 1) (by omega)]
  rw [records, List.map_congr_left hsame, List.map_const', List.length_range]

end Nyctomek.Benchmark
