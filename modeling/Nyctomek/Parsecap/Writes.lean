/-
# `Parsecap.Writes` — which payloads are written, and the order of arrival

The loop over the sorted payloads is followed with a list of its writes, whose bytes the
image is (`reassemble_eq`).  Behind the first payload each turn compares the number with
that of the one written last:

    the same     skipped
    another      written whole

`reassembleWrites_iff` says when each number is written once, `reassemble_perm` that the
image does not depend on the order in which the payloads have been collected.
-/
import Nyctomek.Parsecap.Reassembly
import Nyctomek.Parsecap.Records

namespace Nyctomek.Parsecap

open Prog

/-! ## The loop with its writes -/

/-- `write(imageFD, imagePayload, imagePayloadLen)`, with `imagePayload` at an offset. -/
structure Write where
  payload : TCPPayload
  start : Nat
  deriving DecidableEq, Repr

def Write.bytes (w : Write) : Bytes :=
  (w.payload.data.drop w.start).take (w.payload.payloadLen.toNat - w.start)

/-- The variables of the loop, and its writes. -/
structure WriteState where
  i : Nat
  prevSequenceNumber : UInt32
  writes : List Write
  deriving DecidableEq, Repr

def WriteState.write (s : WriteState) (payload : TCPPayload) (start : Nat) : WriteState :=
  ⟨s.i + 1, payload.sequenceNumber, s.writes ++ [⟨payload, start⟩]⟩

/-- One turn of the loop. -/
def writeTurn (s : WriteState) (payload : TCPPayload) : Except Fault WriteState :=
  if s.prevSequenceNumber = payload.sequenceNumber then .ok { s with i := s.i + 1 }
  else if s.i = 0 then
    match strstr payload.data httpHeaderDelimeter with
    | none => .error .nullPointer
    | some header => .ok (s.write payload (header + httpHeaderDelimeterLen))
  else .ok (s.write payload 0)

/-- The writes to the image file. -/
def reassembleWrites (qsort : StdSort) (payloads : List TCPPayload) : Except Fault (List Write) := do
  let sortedPayloads := qsort.sort (fun a b => compareSequenceNumbers a b < 0) payloads
  let s ← sortedPayloads.foldlM writeTurn ⟨0, 0, []⟩
  .ok s.writes

/-- What the loop without the list has instead. -/
def WriteState.imageState (s : WriteState) : ImageState :=
  ⟨s.i, s.prevSequenceNumber, s.writes.flatMap Write.bytes⟩

theorem imageState_write (s : WriteState) (payload : TCPPayload) (start : Nat) :
    (s.write payload start).imageState = s.imageState.write payload start := by
  simp only [WriteState.imageState, WriteState.write, ImageState.write, List.flatMap_append,
    List.flatMap_cons, List.flatMap_nil, List.append_nil, Write.bytes]

theorem imageTurn_imageState (s : WriteState) (payload : TCPPayload) :
    imageTurn s.imageState payload = (writeTurn s payload).map WriteState.imageState := by
  rw [imageTurn, writeTurn]
  by_cases hskip : s.prevSequenceNumber = payload.sequenceNumber
  · rw [if_pos (show s.imageState.prevSequenceNumber = _ from hskip), if_pos hskip]
    rfl
  · rw [if_neg (show ¬s.imageState.prevSequenceNumber = _ from hskip), if_neg hskip]
    by_cases hi : s.i = 0
    · rw [if_pos (show s.imageState.i = 0 from hi), if_pos hi]
      cases strstr payload.data httpHeaderDelimeter with
      | none => rfl
      | some header => exact congrArg Except.ok (imageState_write s payload _).symm
    · rw [if_neg (show ¬s.imageState.i = 0 from hi), if_neg hi]
      exact congrArg Except.ok (imageState_write s payload 0).symm

theorem foldlM_imageState (l : List TCPPayload) (s : WriteState) :
    l.foldlM imageTurn s.imageState = (l.foldlM writeTurn s).map WriteState.imageState := by
  induction l generalizing s with
  | nil => rfl
  | cons p l ih =>
      rw [List.foldlM_cons, List.foldlM_cons, imageTurn_imageState]
      cases writeTurn s p with
      | error e => rfl
      | ok s' => exact ih s'

/-- **The image** is what the writes hold. -/
theorem reassemble_eq (qsort : StdSort) (payloads : List TCPPayload) :
    reassemble qsort payloads
      = (reassembleWrites qsort payloads).map fun writes => writes.flatMap Write.bytes := by
  rw [reassemble, reassembleWrites]
  have hfold := foldlM_imageState
    (qsort.sort (fun a b => decide (compareSequenceNumbers a b < 0)) payloads) ⟨0, 0, []⟩
  simp only [WriteState.imageState, List.flatMap_nil] at hfold
  rw [hfold]
  cases (qsort.sort (fun a b => decide (compareSequenceNumbers a b < 0)) payloads).foldlM writeTurn
    ⟨0, 0, []⟩ with
  | error e => rfl
  | ok s => rfl

/-! ## Behind the first payload -/

/-- The payloads that are written behind one with a number. -/
def written : UInt32 → List TCPPayload → List TCPPayload
  | _, [] => []
  | prevSequenceNumber, p :: l =>
      if prevSequenceNumber = p.sequenceNumber then written prevSequenceNumber l
      else p :: written p.sequenceNumber l

theorem foldlM_writeTurn {l : List TCPPayload} {s : WriteState} (hi : s.i ≠ 0) :
    ∃ s', l.foldlM writeTurn s = .ok s' ∧
      s'.writes = s.writes ++ (written s.prevSequenceNumber l).map fun p => ⟨p, 0⟩ := by
  induction l generalizing s with
  | nil => exact ⟨s, rfl, (List.append_nil _).symm⟩
  | cons p l ih =>
      rw [List.foldlM_cons, written, writeTurn, if_neg hi]
      by_cases hskip : s.prevSequenceNumber = p.sequenceNumber
      · rw [if_pos hskip, if_pos hskip]
        exact ih (s := { s with i := s.i + 1 }) (Nat.succ_ne_zero _)
      · obtain ⟨s', hrun, hwrites⟩ := ih (s := s.write p 0) (Nat.succ_ne_zero _)
        refine ⟨s', ?_, ?_⟩
        · rw [if_neg hskip]
          exact hrun
        · rw [hwrites, if_neg hskip, List.map_cons, List.append_cons]
          rfl

/-- From sorted payloads the numbers above the first are written, each once. -/
theorem written_sorted {l : List TCPPayload} {prev : UInt32} (hsorted : Sorted l)
    (hprev : ∀ p ∈ l, prev.toNat ≤ p.sequenceNumber.toNat) :
    Increasing (written prev l) ∧ (∀ p ∈ written prev l, p ∈ l) ∧
      ∀ n : UInt32, (∃ p ∈ written prev l, p.sequenceNumber = n) ↔
        (∃ p ∈ l, p.sequenceNumber = n) ∧ prev.toNat < n.toNat := by
  induction l generalizing prev with
  | nil => exact ⟨List.Pairwise.nil, by simp [written], by simp [written]⟩
  | cons p l ih =>
      obtain ⟨hp, hl⟩ := List.pairwise_cons.mp hsorted
      obtain ⟨hle, hprev⟩ := List.forall_mem_cons.mp hprev
      rw [written]
      by_cases hskip : prev = p.sequenceNumber
      · obtain ⟨hincreasing, hmem, hnumbers⟩ := ih hl hprev
        rw [if_pos hskip]
        refine ⟨hincreasing, fun q hq => List.mem_cons_of_mem _ (hmem q hq), ?_⟩
        intro n
        rw [hnumbers n, List.exists_mem_cons_iff, ← hskip]
        refine and_congr_left ?_
        intro hlt
        refine (or_iff_right ?_).symm
        rintro rfl
        exact Nat.lt_irrefl _ hlt
      · obtain ⟨hincreasing, hmem, hnumbers⟩ := ih hl hp
        have hlt : prev.toNat < p.sequenceNumber.toNat :=
          Nat.lt_of_le_of_ne hle fun h => hskip (UInt32.toNat_inj.mp h)
        have habove : ∀ q ∈ written p.sequenceNumber l,
            p.sequenceNumber.toNat < q.sequenceNumber.toNat := fun q hq =>
          ((hnumbers q.sequenceNumber).mp ⟨q, hq, rfl⟩).2
        rw [if_neg hskip]
        refine ⟨List.pairwise_cons.mpr ⟨habove, hincreasing⟩,
          List.forall_mem_cons.mpr ⟨List.mem_cons_self, fun q hq =>
            List.mem_cons_of_mem _ (hmem q hq)⟩, ?_⟩
        intro n
        rw [List.exists_mem_cons_iff, List.exists_mem_cons_iff, hnumbers n]
        constructor
        · rintro (rfl | ⟨hn, hgt⟩)
          · exact ⟨.inl rfl, hlt⟩
          · exact ⟨.inr hn, hlt.trans hgt⟩
        · rintro ⟨rfl | ⟨q, hq, rfl⟩, -⟩
          · exact .inl rfl
          · rcases Nat.eq_or_lt_of_le (hp q hq) with heq | hgt
            · exact .inl (UInt32.toNat_inj.mp heq)
            · exact .inr ⟨⟨q, hq, rfl⟩, hgt⟩

/-! ## Each number once -/

/-- The header is stripped from the first write and from no other. -/
def Stripped : List Write → Prop
  | [] => True
  | w :: writes =>
      (∃ header, strstr w.payload.data httpHeaderDelimeter = some header ∧
        w.start = header + httpHeaderDelimeterLen) ∧
      ∀ w' ∈ writes, w'.start = 0

/-- Every number among the payloads is written once, in ascending order. -/
structure WritesEach (payloads : List TCPPayload) (writes : List Write) : Prop where
  ascending : Increasing (writes.map Write.payload)
  payload : ∀ w ∈ writes, w.payload ∈ payloads
  numbers : ∀ p ∈ payloads, ∃ w ∈ writes, w.payload.sequenceNumber = p.sequenceNumber
  stripped : Stripped writes

/-- A payload of the smallest number, which `qsort` may put first. -/
def Smallest (payloads : List TCPPayload) (p : TCPPayload) : Prop :=
  p ∈ payloads ∧ ∀ q ∈ payloads, p.sequenceNumber.toNat ≤ q.sequenceNumber.toNat

variable {qsort : StdSort} {payloads : List TCPPayload}

theorem map_payload (l : List TCPPayload) :
    (l.map fun p => (⟨p, 0⟩ : Write)).map Write.payload = l := by
  rw [List.map_map]
  exact List.map_id l

/-- A payload with the number 0 is never written. -/
theorem reassembleWrites_zero (hzero : ∃ p ∈ payloads, p.sequenceNumber = 0) {writes : List Write}
    (h : reassembleWrites qsort payloads = .ok writes) :
    ∀ w ∈ writes, w.payload.sequenceNumber ≠ 0 := by
  obtain ⟨hsorted, hmem⟩ := sorted_qsort qsort payloads
  rw [reassembleWrites] at h
  generalize qsort.sort (fun a b => decide (compareSequenceNumbers a b < 0)) payloads = l at *
  obtain ⟨z, hz, hzero⟩ := hzero
  cases l with
  | nil => exact absurd ((hmem z).mpr hz) List.not_mem_nil
  | cons p l =>
      obtain ⟨hp, hl⟩ := List.pairwise_cons.mp hsorted
      -- the first sorted one has the number 0, too
      have hfirst : (0 : UInt32) = p.sequenceNumber := by
        rcases List.mem_cons.mp ((hmem z).mpr hz) with rfl | hzl
        · exact hzero.symm
        · have hle := hp z hzl
          rw [hzero] at hle
          exact (UInt32.toNat_inj.mp (Nat.le_zero.mp hle)).symm
      obtain ⟨s, hrun, hwrites⟩ := foldlM_writeTurn (l := l) (s := ⟨1, 0, []⟩) (Nat.succ_ne_zero 0)
      rw [List.foldlM_cons, writeTurn, if_pos hfirst, ok_bind, hrun, ok_bind] at h
      obtain rfl := Except.ok.inj h
      rw [hwrites, List.nil_append]
      intro w hw hnumber
      obtain ⟨q, hq, rfl⟩ := List.mem_map.mp hw
      obtain ⟨-, hlt⟩ := ((written_sorted hl (fun q _ => Nat.zero_le _)).2.2 0).mp ⟨q, hq, hnumber⟩
      exact Nat.lt_irrefl _ hlt

/-- Without it each number is written once. -/
theorem exists_writesEach (hzero : ∀ p ∈ payloads, p.sequenceNumber ≠ 0)
    (hheader : ∀ p, Smallest payloads p → strstr p.data httpHeaderDelimeter ≠ none) :
    ∃ writes, reassembleWrites qsort payloads = .ok writes ∧ WritesEach payloads writes := by
  obtain ⟨hsorted, hmem⟩ := sorted_qsort qsort payloads
  rw [reassembleWrites]
  generalize qsort.sort (fun a b => decide (compareSequenceNumbers a b < 0)) payloads = l at *
  cases l with
  | nil =>
      refine ⟨[], rfl, List.Pairwise.nil, List.forall_mem_nil _, ?_, trivial⟩
      intro p hp
      exact absurd ((hmem p).mpr hp) List.not_mem_nil
  | cons p l =>
      obtain ⟨hp, hl⟩ := List.pairwise_cons.mp hsorted
      have hsmallest : Smallest payloads p := by
        refine ⟨(hmem p).mp List.mem_cons_self, ?_⟩
        intro q hq
        rcases List.mem_cons.mp ((hmem q).mpr hq) with rfl | hql
        · exact Nat.le_refl _
        · exact hp q hql
      obtain ⟨header, hstrstr⟩ := Option.ne_none_iff_exists'.mp (hheader p hsmallest)
      obtain ⟨s, hrun, hwrites⟩ := foldlM_writeTurn (l := l)
        (s := ⟨1, p.sequenceNumber, [⟨p, header + httpHeaderDelimeterLen⟩]⟩) (Nat.succ_ne_zero 0)
      obtain ⟨hincreasing, hwritten, hnumbers⟩ := written_sorted hl hp
      have hturn : writeTurn ⟨0, 0, []⟩ p
          = .ok ⟨1, p.sequenceNumber, [⟨p, header + httpHeaderDelimeterLen⟩]⟩ := by
        rw [writeTurn, if_neg fun h => hzero p hsmallest.1 h.symm, if_pos rfl, hstrstr]
        rfl
      refine ⟨s.writes, ?_, ?_⟩
      · rw [List.foldlM_cons, hturn, ok_bind, hrun, ok_bind]
      · rw [hwrites]
        constructor
        · rw [List.map_append, map_payload]
          refine List.pairwise_cons.mpr ⟨?_, hincreasing⟩
          intro q hq
          exact ((hnumbers q.sequenceNumber).mp ⟨q, hq, rfl⟩).2
        · intro w hw
          rcases List.mem_cons.mp hw with rfl | hw
          · exact hsmallest.1
          · obtain ⟨q, hq, rfl⟩ := List.mem_map.mp hw
            exact (hmem q).mp (List.mem_cons_of_mem _ (hwritten q hq))
        · intro q hq
          by_cases hsame : p.sequenceNumber = q.sequenceNumber
          · exact ⟨_, List.mem_cons_self, hsame⟩
          · have hlt : p.sequenceNumber.toNat < q.sequenceNumber.toNat :=
              Nat.lt_of_le_of_ne (hsmallest.2 q hq) fun h => hsame (UInt32.toNat_inj.mp h)
            have hql : q ∈ l := by
              refine ((List.mem_cons.mp ((hmem q).mpr hq)).resolve_left ?_)
              rintro rfl
              exact hsame rfl
            obtain ⟨r, hr, hnumber⟩ := (hnumbers q.sequenceNumber).mpr ⟨⟨q, hql, rfl⟩, hlt⟩
            exact ⟨⟨r, 0⟩, List.mem_cons_of_mem _ (List.mem_map.mpr ⟨r, hr, rfl⟩), hnumber⟩
        · refine ⟨⟨header, hstrstr, rfl⟩, ?_⟩
          intro w hw
          obtain ⟨q, -, rfl⟩ := List.mem_map.mp hw
          rfl

/-- **Each number is written once** if and only if 0 is not among them. -/
theorem reassembleWrites_iff
    (hheader : ∀ p, Smallest payloads p → strstr p.data httpHeaderDelimeter ≠ none) :
    (∃ writes, reassembleWrites qsort payloads = .ok writes ∧ WritesEach payloads writes)
      ↔ ∀ p ∈ payloads, p.sequenceNumber ≠ 0 := by
  constructor
  · rintro ⟨writes, hwrites, heach⟩ p hp hzero
    obtain ⟨w, hw, hnumber⟩ := heach.numbers p hp
    exact reassembleWrites_zero ⟨p, hp, hzero⟩ hwrites w hw (hnumber.trans hzero)
  · intro hzero
    exact exists_writesEach hzero hheader

/-- The second segment comes first, and the first one twice. -/
def twiceFirst : List TCPPayload :=
  [.of 6 [254], .of 1 [13, 10, 13, 10, 255], .of 1 [13, 10, 13, 10, 255]]

theorem reassembleWrites_iff_twiceFirst :
    (∃ writes, reassembleWrites insertionSort twiceFirst = .ok writes ∧
        WritesEach twiceFirst writes)
      ↔ ∀ p ∈ twiceFirst, p.sequenceNumber ≠ 0 := by
  refine reassembleWrites_iff ?_
  rintro p ⟨hp, hsmallest⟩
  have hle := hsmallest (.of 1 [13, 10, 13, 10, 255]) (by simp [twiceFirst])
  simp only [twiceFirst, List.mem_cons, List.not_mem_nil, or_false, or_self] at hp
  rcases hp with rfl | rfl
  · exact absurd hle (by decide)
  · decide

/-- The payload with the number 0, which has the header, is skipped. -/
theorem not_writesEach_zero :
    ¬∃ writes, reassembleWrites insertionSort [.of 0 [13, 10, 13, 10, 255]] = .ok writes ∧
      WritesEach [.of 0 [13, 10, 13, 10, 255]] writes := by
  rintro ⟨writes, hwrites, heach⟩
  obtain ⟨w, hw, hnumber⟩ := heach.numbers _ List.mem_cons_self
  exact reassembleWrites_zero ⟨_, List.mem_cons_self, rfl⟩ hwrites w hw hnumber

/-! ## What is collected -/

/-- `data` holds the payload and a NUL behind it. -/
def Collected (p : TCPPayload) : Prop :=
  p.data = p.bytes ++ [0] ∧ p.bytes.length = p.payloadLen.toNat

theorem collected_read {payloadData : Bytes} {tcpPayloadLen : Nat} (hlen : tcpPayloadLen < 65536)
    (hread : payloadData.length ≤ tcpPayloadLen) (sequenceNumber : UInt32) :
    Collected ⟨payloadData ++ List.replicate (tcpPayloadLen + 1 - payloadData.length) 0,
      UInt16.ofNat tcpPayloadLen, sequenceNumber⟩ := by
  obtain ⟨k, rfl⟩ := Nat.exists_eq_add_of_le hread
  have hnat : (UInt16.ofNat (payloadData.length + k)).toNat = payloadData.length + k :=
    UInt16.toNat_ofNat_of_lt hlen
  have hdata : payloadData ++ List.replicate (payloadData.length + k + 1 - payloadData.length) 0
      = (payloadData ++ List.replicate k 0) ++ [(0 : UInt8)] := by
    rw [show payloadData.length + k + 1 - payloadData.length = k + 1 by omega,
      List.replicate_succ', List.append_assoc]
  have hbytes : (payloadData ++ List.replicate k (0 : UInt8)).length = payloadData.length + k := by
    rw [List.length_append, List.length_replicate]
  rw [Collected, TCPPayload.bytes, hnat, hdata, List.take_left' hbytes]
  exact ⟨rfl, hbytes⟩

/-- **One record** adds a payload that has been read with its NUL, or none. -/
theorem collected_payloadsAt (file : Bytes) (q : Nat) : ∀ p ∈ payloadsAt file q, Collected p := by
  intro p hp
  rw [payloadsAt] at hp
  by_cases htaken : (recordAt file q).Taken
  · rw [if_pos htaken] at hp
    rw [List.mem_singleton.mp hp]
    exact collected_read (toShort_lt _) (List.length_take_le _ _) _
  · rw [if_neg htaken] at hp
    cases hp

/-- **Whatever the file**, the payloads that are collected are of this kind. -/
theorem packetLoop_collected {file : Bytes} {payloads : List TCPPayload}
    (h : Ends (packetLoop file) (.ok payloads)) : ∀ p ∈ payloads, Collected p := by
  obtain ⟨fuel, hfuel⟩ := h
  refine payloads_invariant (I := fun list => ∀ p ∈ list, Collected p) ?_
    (List.forall_mem_nil _) (hfuel fuel (Nat.le_refl fuel))
  intro list q hlist
  exact List.forall_mem_append.mpr ⟨hlist, collected_payloadsAt file q⟩

/-! ## The order of arrival -/

/-- Payloads with one number that carry the same bytes are the same. -/
theorem Collected.ext {p q : TCPPayload} (hp : Collected p) (hq : Collected q)
    (hnumber : p.sequenceNumber = q.sequenceNumber) (hbytes : p.bytes = q.bytes) : p = q := by
  obtain ⟨hdata, hlen⟩ := hp
  obtain ⟨hdata', hlen'⟩ := hq
  have hdataEq : p.data = q.data := by rw [hdata, hdata', hbytes]
  have hlenEq : p.payloadLen = q.payloadLen :=
    UInt16.toNat_inj.mp (by rw [← hlen, ← hlen', hbytes])
  cases p
  cases q
  simp only [TCPPayload.mk.injEq]
  exact ⟨hdataEq, hlenEq, hnumber⟩

/-- **The order of arrival** does not matter, nor that in which `qsort` puts equal numbers. -/
theorem reassemble_perm {payloads' : List TCPPayload} (h : payloads.Perm payloads')
    (hcollected : ∀ p ∈ payloads, Collected p)
    (hsame : ∀ p ∈ payloads, ∀ q ∈ payloads, p.sequenceNumber = q.sequenceNumber →
      p.bytes = q.bytes) (qsort qsort' : StdSort) :
    reassemble qsort payloads = reassemble qsort' payloads' := by
  have hsort : qsort.sort (fun a b => decide (compareSequenceNumbers a b < 0)) payloads
      = qsort'.sort (fun a b => decide (compareSequenceNumbers a b < 0)) payloads' := by
    refine sort_eq_of_perm h (strictWeakOn_compare payloads) ?_
    intro p hp q hq hpq hqp
    rw [← Bool.not_eq_true, compareSequenceNumbers_lt, Nat.not_lt] at hpq hqp
    have hnumber : p.sequenceNumber = q.sequenceNumber :=
      UInt32.toNat_inj.mp (Nat.le_antisymm hqp hpq)
    exact (hcollected p hp).ext (hcollected q hq) hnumber (hsame p hp q hq hnumber)
  rw [reassemble, reassemble, hsort]

theorem reassemble_perm_swap :
    reassemble mergeSort [.of 2 [255], .of 1 [13, 10, 13, 10, 216]]
      = reassemble insertionSort [.of 1 [13, 10, 13, 10, 216], .of 2 [255]] := by
  refine reassemble_perm (List.Perm.swap _ _ _) ?_ ?_ mergeSort insertionSort
  · intro p hp
    rcases List.mem_pair.mp hp with rfl | rfl
    · exact ⟨rfl, rfl⟩
    · exact ⟨rfl, rfl⟩
  · intro p hp q hq hnumber
    rcases List.mem_pair.mp hp with rfl | rfl <;> rcases List.mem_pair.mp hq with rfl | rfl
    · rfl
    · exact absurd hnumber (by decide)
    · exact absurd hnumber (by decide)
    · rfl

end Nyctomek.Parsecap
